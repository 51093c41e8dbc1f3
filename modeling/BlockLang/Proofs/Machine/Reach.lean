import BlockLang.Proofs.Machine.Sessions

/-!
# Getting from one machine to another

What a piece of code does is said without the steps that it takes: from the code, on any stack and
at any depth, the machine gets to the value (`Setting.Gives`). The rules for it follow the pieces of
code. Items of a sequence are run one after the other (`Setting.Runs`), and the machine that has run
some of them waits to go on with the others (`Setting.following`).
-/

namespace BlockLang

/-- A value or an exit. -/
def Control.isResult : Control → Bool
  | .give _ | .leave _ => true
  | _ => false

/-- What was evaluated on top of the stack has ended, with a value or an exit. -/
def Machine.IsBack (m : Machine) (stack : List Cont) : Prop :=
  m.stack = stack ∧ m.control.isResult = true

namespace Setting

variable {σ : Setting} {f : FrameId} {store store' : Store} {code : Code} {v : Value}

/-- Some steps lead from one machine to the other. -/
def Reaches (σ : Setting) (m m' : Machine) : Prop := ∃ n, σ.after n m = some m'

namespace Reaches

variable {m m' m'' : Machine}

theorem refl : σ.Reaches m m := ⟨0, rfl⟩

theorem head (h : σ.step m = .next m') (h' : σ.Reaches m' m'') : σ.Reaches m m'' := by
  obtain ⟨n, hn⟩ := h'
  refine ⟨n + 1, ?_⟩
  rw [Setting.after, h]
  exact hn

theorem single (h : σ.step m = .next m') : σ.Reaches m m' := head h refl

theorem trans (h : σ.Reaches m m') (h' : σ.Reaches m' m'') : σ.Reaches m m'' := by
  obtain ⟨n, hn⟩ := h
  induction n generalizing m with
  | zero =>
    cases hn
    exact h'
  | succ n ih =>
    rw [Setting.after] at hn
    cases hs : σ.step m with
    | next m₁ =>
      rw [hs] at hn
      exact head hs (ih hn)
    | done outcome session =>
      rw [hs] at hn
      cases hn

theorem induct {P : Machine → Prop} (hstart : P m)
    (hstep : ∀ m₁ m₂, σ.Reaches m m₁ → P m₁ → σ.step m₁ = .next m₂ → P m₂)
    (h : σ.Reaches m m') : P m' := by
  have hgo : ∀ n m₁, σ.Reaches m m₁ → P m₁ → σ.after n m₁ = some m' → P m' := by
    intro n
    induction n with
    | zero =>
      intro m₁ _ hm₁ hafter
      cases hafter
      exact hm₁
    | succ n ih =>
      intro m₁ hreached hm₁ hafter
      unfold Setting.after at hafter
      split at hafter
      · rename_i m₂ hnext
        exact ih m₂ (hreached.trans (.single hnext)) (hstep m₁ m₂ hreached hm₁ hnext) hafter
      · cases hafter
  obtain ⟨n, hn⟩ := h
  exact hgo n m refl hstart hn

end Reaches

variable {m : Machine} {left : Session}

theorem exists_of_runFor (h : σ.runFor n m = some (outcome, left)) :
    ∃ k m', σ.after k m = some m' ∧ σ.step m' = .done outcome left := by
  induction n generalizing m with
  | zero => cases h
  | succ n ih =>
    unfold runFor at h
    split at h
    · rename_i hstep
      obtain ⟨k, m', hafter, hdone⟩ := ih h
      refine ⟨k + 1, m', ?_, hdone⟩
      rw [after, hstep]
      exact hafter
    · rename_i hstep
      cases h
      exact ⟨0, m, rfl, hstep⟩

theorem session_of_done (h : σ.step m = .done outcome left) : left = ⟨m.store, m.depth⟩ := by
  unfold step at h
  split at h <;> cases h <;> rfl

theorem control_of_done (h : σ.step m = .done (.fault fault) left)
    (hfault : fault.isEscape = false) : m.control = .leave (.raise fault) := by
  unfold step at h
  split at h <;> try cases h
  rename_i e
  have hconclude : σ.conclude e = .fault fault := (Step.done.inj h).1
  cases e with
  | raise raised =>
    cases hconclude
    rfl
  | returnWith id v =>
    unfold conclude at hconclude
    simp only at hconclude
    split at hconclude <;> cases hconclude
    cases hfault
  | breakWith | nextWith | redo | retry =>
    cases hconclude
    cases hfault

/-! ## Up to the end of an evaluation -/

/-- The machines between a machine and the end of what it evaluates on top of the stack, with both
of them. -/
inductive Inside (σ : Setting) (stack : List Cont) (m : Machine) : Machine → Prop
  | start : Inside σ stack m m
  | step {m₁ m₂ : Machine} : Inside σ stack m m₁ → ¬ m₁.IsBack stack → σ.step m₁ = .next m₂ →
      Inside σ stack m m₂

theorem step_cases (σ : Setting) (m : Machine) :
    (m.IsBack [] ∧ ∃ outcome, σ.step m = .done outcome ⟨m.store, m.depth⟩) ∨
      (∃ c, m.control = .halt c ∧ σ.step m = .done (.crash c) ⟨m.store, m.depth⟩) ∨
      (¬ m.IsBack [] ∧ ∃ m', σ.step m = .next m') := by
  obtain ⟨store, depth, stack, control⟩ := m
  cases control with
  | eval | call => exact .inr (.inr ⟨fun hback => (by cases hback.2), _, rfl⟩)
  | halt c => exact .inr (.inl ⟨c, rfl, by cases stack <;> rfl⟩)
  | give | leave =>
    cases stack with
    | nil => exact .inl ⟨⟨rfl, rfl⟩, _, rfl⟩
    | cons => exact .inr (.inr ⟨fun hback => (by cases hback.1), _, rfl⟩)

/-- Every machine of a run comes before the end of the program, or is the one that it ends with. -/
theorem inside_of_reaches {m' : Machine} (h : σ.Reaches m m') : σ.Inside [] m m' := by
  refine h.induct (P := σ.Inside [] m) .start fun m₁ m₂ _ hinside hstep => ?_
  rcases σ.step_cases m₁ with ⟨_, _, hdone⟩ | ⟨_, _, hdone⟩ | ⟨hback, _⟩
  · cases hdone.symm.trans hstep
  · cases hdone.symm.trans hstep
  · exact hinside.step hback hstep

/-! ## Values -/

/-- The code, run in the frame, gives the value and leaves the store as `store'`. -/
def Gives (σ : Setting) (f : FrameId) (code : Code) (store store' : Store) (v : Value) : Prop :=
  ∀ depth stack, σ.Reaches (evaluating store depth stack f code) (giving store' depth stack v)

namespace Gives

theorem now (h : ∀ depth stack, σ.eval store depth stack f code = giving store' depth stack v) :
    σ.Gives f code store store' v :=
  fun depth stack => .single (congrArg Step.next (h depth stack))

theorem writeLocal (h : σ.Gives f code store store' v) (hlevel : target.level = 0)
    (hroom : target.slot < (store'.frame f).slots.size) :
    σ.Gives f (.writeLocal target code) store (store'.setSlot f target.slot v) v := by
  intro depth stack
  refine .head rfl ((h depth _).trans (.single (congrArg Step.next ?_)))
  have howner : store'.frameOf f target = .ok f := by
    rw [Store.frameOf, hlevel]
    rfl
  have hok : store'.hasRoom f target.slot = true := by simp [Store.hasRoom, hroom]
  simp only [resume, howner, hok, if_true]

end Gives

/-! ## Sequences -/

/-- What waits for the value of an item while others are to follow. -/
def following (frame : FrameId) (rest : List Code) (stack : List Cont) : List Cont :=
  match rest with
  | [] => stack
  | _ :: _ => .sequence frame rest :: stack

variable {codes : List Code}

theorem items_cons (depth : Nat) (stack : List Cont) (code : Code) (rest : List Code) :
    items store depth stack f (code :: rest) =
      evaluating store depth (following f rest stack) f code := by
  cases rest <;> rfl

/-- All the codes give a value, one after the other. -/
inductive Runs (σ : Setting) (f : FrameId) : List Code → Store → Store → Prop
  | nil (store : Store) : Runs σ f [] store store
  | cons {code : Code} {codes : List Code} {store store₁ store' : Store} {v : Value}
      (first : σ.Gives f code store store₁ v) (rest : Runs σ f codes store₁ store') :
      Runs σ f (code :: codes) store store'

namespace Runs

theorem append (h : σ.Runs f codes store store₁) (h' : σ.Runs f more store₁ store') :
    σ.Runs f (codes ++ more) store store' := by
  induction h with
  | nil => exact h'
  | cons first _ ih => exact .cons first (ih h')

theorem items (h : σ.Runs f (code :: codes) store store') (rest : List Code) :
    ∃ v, ∀ depth stack, σ.Reaches (Setting.items store depth stack f (code :: codes ++ rest))
      (giving store' depth (following f rest stack) v) := by
  induction codes generalizing code store with
  | nil =>
    cases h with
    | @cons _ _ _ _ _ v first more =>
      cases more
      refine ⟨v, fun depth stack => ?_⟩
      rw [List.cons_append, items_cons]
      exact first depth _
  | cons next codes ih =>
    cases h with
    | cons first more =>
      obtain ⟨v, hv⟩ := ih more
      refine ⟨v, fun depth stack => ?_⟩
      rw [List.cons_append, items_cons]
      exact (first depth _).trans (.head rfl (hv depth stack))

end Runs

/-- Code is as good as the list of its items. -/
theorem reaches_items (code : Code) (depth : Nat) (stack : List Cont) :
    σ.Reaches (evaluating store depth stack f code) (items store depth stack f code.items) := by
  cases code with
  | sequence codes => exact .single rfl
  | _ => exact .refl

/-- The first `count` items of the code are run, and the others are to follow. -/
def Passes (σ : Setting) (f : FrameId) (code : Code) (count : Nat) (store store' : Store) : Prop :=
  ∃ v, ∀ depth stack, σ.Reaches (evaluating store depth stack f code)
    (giving store' depth (following f (code.items.drop count) stack) v)

theorem Runs.passes (h : σ.Runs f (first :: codes) store store')
    (hitems : first :: codes <+: code.items) (hcount : codes.length + 1 = count) :
    σ.Passes f code count store store' := by
  obtain ⟨rest, hrest⟩ := hitems
  obtain ⟨v, hv⟩ := h.items rest
  refine ⟨v, fun depth stack => (reaches_items code depth stack).trans ?_⟩
  have hdrop : code.items.drop count = rest := by
    rw [← hrest, ← hcount]
    exact List.drop_left
  rw [hdrop, ← hrest]
  exact hv depth stack

end Setting

end BlockLang
