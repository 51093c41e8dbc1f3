import BlockLang.Proofs.Machine.Arrays
import BlockLang.Proofs.Machine.Limits

/-!
# Evaluations that return

`Setting.Returns` looks at an evaluation from its end: it came back to the stack that it started on,
and it did so with a value. Whatever user code ran on the way, the parts of what returned have
returned as well (`Setting.Returns.split`), so that an evaluation can be taken apart along its code.
-/

namespace BlockLang

open List Setting

namespace Setting

variable {σ : Setting} {stack : List Cont} {m m' n : Machine} {s₀ s : Store} {depth : Nat}
  {v w : Value} {f : FrameId} {k : Cont}

theorem Inside.reaches (h : σ.Inside stack m n) : σ.Reaches m n := by
  induction h with
  | start => exact .refl
  | step _ _ hstep ih => exact ih.trans (.single hstep)

theorem Inside.head (h : σ.Inside stack m n) :
    n = m ∨ ¬ m.IsBack stack ∧ ∃ m', σ.step m = .next m' ∧ σ.Inside stack m' n := by
  induction h with
  | start => exact .inl rfl
  | step _ hback hstep ih =>
    right
    rcases ih with rfl | ⟨hm, m', hfirst, hrest⟩
    · exact ⟨hback, _, hstep, .start⟩
    · exact ⟨hm, m', hfirst, hrest.step hback hstep⟩

/-- What is evaluated on a stack leaves the stack where it is. -/
theorem Inside.exists_above (h : σ.Inside stack m n) (hm : m.stack = stack) :
    ∃ above, n.stack = above ++ stack := by
  have hstart : m.Atop stack m.depth (max m.depth σ.maxDepth) :=
    ⟨[], hm, rfl, Nat.le_max_left _ _⟩
  obtain ⟨above, hstack, _⟩ := hstart.within (Nat.le_max_right _ _) h
  exact ⟨above, hstack⟩

theorem Inside.trans (h : σ.Inside stack m n) (h' : σ.Inside stack n m') : σ.Inside stack m m' := by
  induction h' with
  | start => exact h
  | step _ hback hstep ih => exact ih.step hback hstep

theorem Inside.cons (hm : ¬ m.IsBack stack) (hstep : σ.step m = .next m')
    (h : σ.Inside stack m' n) : σ.Inside stack m n :=
  .trans (.step .start hm hstep) h

theorem Inside.eval {below : List Cont} {code : Code}
    (h : σ.Inside stack (σ.eval s₀ depth below f code) n) :
    σ.Inside stack (evaluating s₀ depth below f code) n :=
  .cons (fun hback => by cases hback.2) rfl h

theorem ne_append_cons (above : List Cont) : stack ≠ above ++ k :: stack := fun heq => by
  have := congrArg List.length heq
  simp at this
  omega

/-- A part is over before the whole is. -/
theorem Inside.outer (above : List Cont) (h : σ.Inside (above ++ stack) m n)
    (hm : m.stack = above ++ stack) : σ.Inside stack m n := by
  induction h with
  | start => exact .start
  | step h hback hstep ih =>
    obtain ⟨more, hstack⟩ := h.exists_above hm
    refine ih.step (fun ⟨heq, hresult⟩ => hback ⟨?_, hresult⟩) hstep
    have hlen := congrArg List.length (hstack.symm.trans heq)
    simp only [length_append] at hlen
    obtain rfl : more = [] := eq_nil_of_length_eq_zero (by omega)
    exact hstack

/-- What the machine evaluates on top of the stack ends with the value, in the store. -/
def Returns (σ : Setting) (stack : List Cont) (m : Machine) (s : Store) (v : Value) : Prop :=
  ∃ depth, σ.Inside stack m (giving s depth stack v)

/-- The object is asked for the array that is waited for, and answers nil. -/
def Declines (σ : Setting) (f : FrameId) (object : Value) (waiting : List Cont) (n : Machine) :
    Prop :=
  n.store.hasToAry object = true ∧ n.control = .call f object "to_ary" [] none ∧
    n.stack = .castAnswer object :: waiting ∧ ∃ s, σ.Returns n.stack n s .nil

namespace Returns

theorem next (h : σ.Returns stack m s v) (hm : ¬ m.IsBack stack) (hstep : σ.step m = .next m') :
    σ.Returns stack m' s v := by
  obtain ⟨depth, h⟩ := h
  rcases h.head with rfl | ⟨_, m₁, hfirst, hrest⟩
  · exact absurd ⟨rfl, rfl⟩ hm
  · cases Step.next.inj (hstep.symm.trans hfirst)
    exact ⟨depth, hrest⟩

theorem eval {code : Code} (h : σ.Returns stack (evaluating s₀ depth below f code) s v) :
    σ.Returns stack (σ.eval s₀ depth below f code) s v :=
  h.next (fun hback => by cases hback.2) rfl

theorem given (h : σ.Returns stack (giving s₀ depth stack w) s v) : s = s₀ ∧ v = w := by
  obtain ⟨depth', h⟩ := h
  rcases h.head with heq | ⟨hback, _⟩
  · cases heq
    exact ⟨rfl, rfl⟩
  · exact absurd ⟨rfl, rfl⟩ hback

theorem not_left (h : σ.Returns stack (leaving s₀ depth stack e) s v) : False := by
  obtain ⟨depth', h⟩ := h
  rcases h.head with heq | ⟨hback, _⟩
  · cases heq
  · exact absurd ⟨rfl, rfl⟩ hback

/-- **What waits for a part got a value**, if it lets every exit pass. -/
theorem split (h : σ.Returns stack m s v) (hm : m.stack = k :: stack) (hk : ∀ e, k.Lets e) :
    ∃ s₁ depth₁ w, σ.Inside (k :: stack) m (giving s₁ depth₁ (k :: stack) w) ∧
      σ.Returns stack (σ.resume s₁ depth₁ stack w k) s v := by
  obtain ⟨depth, h⟩ := h
  -- either the part is not over yet, or it was over at some machine on the way
  have hpart : ∀ {n}, σ.Inside stack m n → σ.Inside (k :: stack) m n ∨
      ∃ q, σ.Inside (k :: stack) m q ∧ q.IsBack (k :: stack) ∧ σ.Inside stack q n := by
    intro n hn
    induction hn with
    | start => exact .inl .start
    | @step m₁ m₂ _ hback hstep ih =>
      rcases ih with hin | ⟨q, hq, hqback, hrest⟩
      · by_cases hover : m₁.IsBack (k :: stack)
        · exact .inr ⟨m₁, hin, hover, .step .start hback hstep⟩
        · exact .inl (hin.step hover hstep)
      · exact .inr ⟨q, hq, hqback, hrest.step hback hstep⟩
  rcases hpart h with hin | ⟨⟨s₁, depth₁, _, control⟩, hq, ⟨rfl, hresult⟩, hrest⟩
  · obtain ⟨above, hstack⟩ := hin.exists_above hm
    exact absurd hstack (ne_append_cons above)
  · have hgo : σ.Returns stack ⟨s₁, depth₁, k :: stack, control⟩ s v := ⟨depth, hrest⟩
    have hnot : ¬ Machine.IsBack ⟨s₁, depth₁, k :: stack, control⟩ stack :=
      fun hback => ne_append_cons [] hback.1.symm
    cases control with
    | give w => exact ⟨s₁, depth₁, w, hq, hgo.next hnot rfl⟩
    | leave e =>
      have hleft := hgo.next hnot (congrArg Step.next (hk e s₁ depth₁ stack))
      exact hleft.not_left.elim
    | eval | call | halt => cases hresult

theorem first {code : Code} (h : σ.Returns stack (evaluating s₀ depth stack f code) s v)
    (hfirst : code.first? f = some (part, k)) (hk : ∀ e, k.Lets e) :
    ∃ s₁ depth₁ w, σ.Inside (k :: stack) (evaluating s₀ depth (k :: stack) f part)
        (giving s₁ depth₁ (k :: stack) w) ∧
      σ.Returns stack (σ.resume s₁ depth₁ stack w k) s v := by
  have hpart := h.eval
  rw [eval_of_first? hfirst] at hpart
  exact hpart.split rfl hk

/-- A variable that was read is there, and nothing else was done. -/
theorem readLocal (h : σ.Returns stack (evaluating s₀ depth stack f (.readLocal l)) s v) :
    ∃ owner, s₀.frameOf f l = .ok owner ∧ s = s₀ ∧ v = s₀.slot owner l.slot := by
  have hread := h.eval
  simp only [Setting.eval] at hread
  split at hread
  · rename_i owner howner
    exact ⟨owner, howner, hread.given⟩
  · exact hread.not_left.elim

theorem writeLocal (h : σ.Returns stack (evaluating s₀ depth stack f (.writeLocal l value)) s v) :
    ∃ s₁ depth₁ owner, σ.Inside (.writeLocal f l :: stack)
        (evaluating s₀ depth (.writeLocal f l :: stack) f value)
        (giving s₁ depth₁ (.writeLocal f l :: stack) v) ∧
      s₁.frameOf f l = .ok owner ∧ s = s₁.setSlot owner l.slot v := by
  obtain ⟨s₁, depth₁, w, hin, hwrite⟩ := h.first rfl fun _ _ _ _ => rfl
  simp only [resume] at hwrite
  split at hwrite
  · rename_i owner howner
    split at hwrite
    · obtain ⟨rfl, rfl⟩ := hwrite.given
      exact ⟨s₁, depth₁, owner, hin, howner, rfl⟩
    · obtain ⟨depth', hhalt⟩ := hwrite
      rcases hhalt.head with heq | ⟨_, _, hstep, _⟩
      · cases heq
      · cases hstep
  · exact hwrite.not_left.elim

/-- What the items of an array return is an array. -/
theorem operands : ∀ {codes : List Code} {s₀ : Store} {depth : Nat} {done : List Value},
    σ.Returns stack (σ.operands s₀ depth stack f .array done codes) s v → v.IsArray
  | [], _, _, _, h => ⟨_, h.given.2⟩
  | code :: rest, s₀, depth, done, h => by
    unfold Setting.operands at h
    split at h
    · rename_i heq
      cases heq
      obtain ⟨s₁, depth₁, w, _, hrest⟩ := h.split rfl fun _ _ _ _ => rfl
      exact operands hrest
    · rename_i heq
      cases heq
      obtain ⟨s₁, depth₁, w, _, hrest⟩ := h.split rfl fun _ _ _ _ => rfl
      exact operands hrest
    · rename_i heq
      cases heq

/-- A value that was made an array is one, unless it is an object that answered nil. -/
theorem cast (h : σ.Returns stack (cast s₀ depth stack f onNil w) s v) :
    v.IsArray ∨ v = .nil ∧ σ.Declines f w stack (Setting.cast s₀ depth stack f onNil w) := by
  unfold Setting.cast at h
  split at h
  · exact .inl ⟨_, h.given.2⟩
  · exact .inl ⟨_, h.given.2⟩
  · rename_i hnil harray
    split at h
    · rename_i hasks
      obtain ⟨s₁, depth₁, answer, hin, hanswer⟩ := h.split rfl fun _ _ _ _ => rfl
      simp only [resume] at hanswer
      split at hanswer
      · obtain ⟨rfl, rfl⟩ := hanswer.given
        right
        simp only [Setting.cast, hasks, if_true, true_and]
        exact ⟨hasks, rfl, rfl, s, depth₁, hin⟩
      · exact .inl ⟨_, hanswer.given.2⟩
      · exact hanswer.not_left.elim
    · exact .inl ⟨_, h.given.2⟩

/-- Items that follow one another: the first of them has returned, and the others do. -/
theorem ofItems {code : Code} : ∀ {rest : List Code},
    σ.Returns stack (evaluating s₀ depth stack f (.ofItems (code :: rest))) s v →
    ∃ s₁ depth₁ w, σ.Inside (following f rest stack)
        (evaluating s₀ depth (following f rest stack) f code)
        (giving s₁ depth₁ (following f rest stack) w) ∧
      (s = s₁ ∧ rest = [] ∨ ∃ next more, rest = next :: more ∧
        let n := evaluating s₁ depth₁ (following f more stack) f next
        σ.Inside stack (evaluating s₀ depth stack f (.ofItems (code :: rest))) n ∧
        σ.Returns stack n s v)
  | [], h => by
    obtain ⟨depth₁, hin⟩ := h
    exact ⟨s, depth₁, v, hin, .inl ⟨rfl, rfl⟩⟩
  | next :: more, h => by
    obtain ⟨s₁, depth₁, w, hin, hrest⟩ := h.eval.split (k := .sequence f (next :: more)) rfl
      fun _ _ _ _ => rfl
    have hnext : σ.resume s₁ depth₁ stack w (.sequence f (next :: more)) =
        evaluating s₁ depth₁ (following f more stack) f next := items_cons ..
    rw [hnext] at hrest
    refine ⟨s₁, depth₁, w, hin, .inr ⟨next, more, rfl,
      .eval (.trans (hin.outer [_] rfl) (.cons ?_ (congrArg Step.next hnext) .start)), hrest⟩⟩
    exact fun hback => ne_append_cons [] hback.1.symm

/-- A right side that is kept: its value is written to the variable, and read from it at the end. -/
theorem keepingRight {temp : Local} {right : Code} {rest : List Code} (hlevel : temp.level = 0)
    (h : σ.Returns stack (evaluating s₀ depth stack f
      (.elidable (.ofItems (.writeLocal temp right :: rest)) (.readLocal temp))) s v) :
    let last := .sequence f [.readLocal temp] :: stack
    let waiting := .writeLocal f temp :: following f rest last
    ∃ s₁ depth₁ w, σ.Inside waiting (evaluating s₀ depth waiting f right)
        (giving s₁ depth₁ waiting w) ∧
      v = s.slot f temp.slot ∧
      (s = s₁.setSlot f temp.slot w ∧ rest = [] ∨ ∃ next more depth₂ w', rest = next :: more ∧
        let n := evaluating (s₁.setSlot f temp.slot w) depth₂ (following f more last) f next
        σ.Inside stack (evaluating s₀ depth stack f
          (.elidable (.ofItems (.writeLocal temp right :: rest)) (.readLocal temp))) n ∧
        σ.Returns last n s w') := by
  -- the variable is the frame's own, whatever ran in between
  have hown : ∀ {s : Store} {owner : FrameId}, s.frameOf f temp = .ok owner → f = owner := by
    intro s owner howner
    rw [Store.frameOf, hlevel] at howner
    exact Except.ok.inj howner
  obtain ⟨s', depth', w', hin, hread⟩ := h.first rfl fun _ _ _ _ => rfl
  obtain ⟨owner, howner, rfl, rfl⟩ := hread.readLocal
  obtain rfl := hown howner
  obtain ⟨s₂, depth₂, w, hwrite, hrest⟩ := ofItems ⟨depth', hin⟩
  obtain ⟨s₁, depth₁, owner, hright, hfound, rfl⟩ := Returns.writeLocal ⟨depth₂, hwrite⟩
  obtain rfl := hown hfound
  refine ⟨s₁, depth₁, w, hright, rfl, ?_⟩
  rcases hrest with ⟨rfl, rfl⟩ | ⟨next, more, rfl, hnext, hreturns⟩
  · exact .inl ⟨rfl, rfl⟩
  · exact .inr ⟨next, more, depth₂, w', rfl, .eval (hnext.outer [_] rfl), hreturns⟩

end Returns

end Setting

end BlockLang
