import Mathlib
import BlockLang.Proofs.Lowering.Homes
import BlockLang.Proofs.Machine.Moves
import BlockLang.Proofs.Machine.Reach

/-!
# Leaving blocks

A `return` in a block is to end the call of the method or lambda that the block stands in, and a
`break` in a block the call that the block was passed to. An exit carries the identity of a body,
though, and not that of one of the body's calls; so all that the machine can do is to take the
innermost call that has the identity.

The machine never runs code that is not part of the body of its frame (`Machine.Traced`), so an exit
carries the identity that its place in the program gives it. **In every run of a lowered program an
exit ends the innermost pending call of what it leaves, and without one it ends the run**
(`Program.lower_leaves`). A method that calls itself and hands a block down shows that this is not
always the call that created the block (`Setting.handedDown_leaves`).
-/

namespace BlockLang

open List Setting Code

/-! ## Code in hand -/

variable {u : CodeUnit} {s t : Store} {f : FrameId}

/-- The `break` with this identity goes no further than the code. -/
def Code.Catches (id : BreakId) : Code → Prop
  | .catchBreak id' _ | .loop _ _ _ id' => id' = id
  | _ => False

/-- The continuation is there for code in hand, or is the end of a body of the unit. -/
def Cont.Arises (u : CodeUnit) (hand : FrameId → Code → Prop) (s : Store) : Cont → Prop
  | .catchBreak id => ∃ f c, hand f c ∧ c.Catches id
  | .writeLocal f target => ∃ value, hand f (.writeLocal target value)
  | .method body => body.kind = .method ∧ ∃ b, u.body? b = some body
  | .closure f body => hand f body.code ∧ f < s.frames.size ∧ u.body? (s.frame f).body = some body
  | k => ∀ f ∈ k.frame?, ∀ c ∈ k.codes, hand f c

/-- What code can be in hand: with a piece of code its parts, and the code of each body in a frame
that is made when there are `floor` frames already. -/
structure Handing (u : CodeUnit) (floor : Nat) (hand : Store → FrameId → Code → Prop) : Prop where
  part : ∀ {s f c part}, hand s f c → part ∈ c.children → hand s f part
  grow : ∀ {s t f c}, hand s f c → s.Grows t → hand t f c
  newFrame : ∀ {t : Store} {new : Frame} {body}, floor ≤ t.frames.size →
    u.body? new.body = some body → hand (t.newFrame new).2 t.frames.size body.code

/-- Everything that the machine is yet to run before it is back at the stack is in hand. -/
def Machine.Hands (u : CodeUnit) (hand : Store → FrameId → Code → Prop) (base : List Cont)
    (m : Machine) : Prop :=
  (∃ above, m.stack = above ++ base ∧ ∀ k ∈ above, k.Arises u (hand m.store) m.store) ∧
    ∀ f c, m.control = .eval f c → hand m.store f c

variable {hand : FrameId → Code → Prop} {k : Cont}

theorem Cont.arises_of_codes (hk : k.isWalk = true ∨ k.isAnswer = true ∨ k.isAttendant = true)
    (h : ∀ f ∈ k.frame?, ∀ c ∈ k.codes, hand f c) : k.Arises u hand s := by
  cases k with
  | catchBreak | method | closure | writeLocal => simp [isWalk, isAnswer, isAttendant] at hk
  | _ => exact h

theorem Cont.arises_of_isAnswer (hk : k.isAnswer = true) : k.Arises u hand s := by
  refine arises_of_codes (Or.inr (Or.inl hk)) ?_
  cases k with
  | castAnswer | guardAnswer => exact nofun
  | _ => cases hk

theorem Cont.arises_of_isAttendant (hk : k.isAttendant = true) : k.Arises u hand s := by
  refine arises_of_codes (Or.inr (Or.inr hk)) ?_
  cases k with
  | construct | iterate => exact nofun
  | _ => cases hk

/-- What a step starts from is in hand. -/
def Cause.Handed (u : CodeUnit) (hand : FrameId → Code → Prop) (s : Store) : Cause → Prop
  | .code f c => hand f c
  | .value k => k.Arises u hand s
  | .call => True

namespace Handing

variable {floor : Nat} {hand : Store → FrameId → Code → Prop} (H : Handing u floor hand)

include H

theorem arises_grow (h : k.Arises u (hand s) s) (hst : s.Grows t) : k.Arises u (hand t) t := by
  cases k with
  | closure f body =>
    refine ⟨H.grow h.1 hst, Nat.lt_of_lt_of_le h.2.1 hst.size, ?_⟩
    rw [hst.body f h.2.1]
    exact h.2.2
  | catchBreak id =>
    obtain ⟨f, c, hc, hid⟩ := h
    exact ⟨f, c, H.grow hc hst, hid⟩
  | writeLocal f target =>
    obtain ⟨value, hvalue⟩ := h
    exact ⟨value, H.grow hvalue hst⟩
  | method body => exact h
  | _ => exact fun f hf c hc => H.grow (h f hf c hc) hst

theorem arises_of_first? {c part : Code} (h : c.first? f = some (part, k)) (hc : hand s f c) :
    k.Arises u (hand s) s := by
  have hcodes : ∀ g ∈ k.frame?, ∀ other ∈ k.codes, hand s g other := by
    intro g hg other hother
    rw [frame_of_first? h hg]
    exact H.part hc ((mem_children_of_first? h).2 other hother)
  cases k with
  | catchBreak id =>
    refine ⟨f, c, hc, ?_⟩
    unfold first? at h
    split at h <;> cases h
    rfl
  | writeLocal g target =>
    unfold first? at h
    split at h <;> cases h
    exact ⟨part, hc⟩
  | method | closure =>
    unfold first? at h
    split at h <;> cases h
  | _ => exact hcodes

variable {cause : Cause}

theorem codes (h : cause.Handed u (hand s) s) (hf : cause.frame? = some f)
    (hc : c ∈ cause.codes) : hand s f c := by
  cases cause with
  | code g whole =>
    cases hf
    exact H.part h hc
  | value k =>
    cases k with
    | catchBreak | method | closure => cases hf
    | writeLocal => cases hc
    | _ => exact h f hf c hc
  | call => cases hf

theorem items (h : cause.Handed u (hand s) s) {codes : List Code}
    (hitems : cause.items? = some (f, codes)) : ∀ c ∈ codes, hand s f c := by
  unfold Cause.items? at hitems
  split at hitems <;> cases hitems <;> exact fun c hc => H.codes h rfl hc

theorem loop (h : cause.Handed u (hand s) s)
    (hloop : cause.loop? = some (f, condition, body, catches)) :
    hand s f condition ∧ hand s f body ∧ ∀ k ∈ catches, k.Arises u (hand s) s := by
  obtain ⟨hf, hcondition, hbody⟩ := Cause.parts_of_loop? hloop
  refine ⟨H.codes h hf hcondition, H.codes h hf hbody, ?_⟩
  unfold Cause.loop? at hloop
  split at hloop <;> cases hloop
  · exact forall_mem_singleton.mpr ⟨f, _, h, rfl⟩
  · exact forall_mem_nil _
  · exact forall_mem_nil _

end Handing

namespace Machine.Hands

variable {floor : Nat} {hand : Store → FrameId → Code → Prop} {σ : Setting} {m m' : Machine}
  {stack base : List Cont} {depth : Nat}

theorem evaluating (above : List Cont) (hc : hand s f c)
    (habove : ∀ k ∈ above, k.Arises u (hand s) s) :
    (evaluating s depth (above ++ stack) f c).Hands u hand stack := by
  refine ⟨⟨above, rfl, habove⟩, fun g c' h => ?_⟩
  cases h
  exact hc

theorem loop (catches : List Cont) (hcondition : hand s f condition) (hbody : hand s f body)
    (hcatches : ∀ k ∈ catches, k.Arises u (hand s) s) :
    (loopTest s depth (catches ++ stack) f condition body).Hands u hand stack ∧
      (loopBody s depth (catches ++ stack) f condition body).Hands u hand stack := by
  have hparts : ∀ g ∈ some f, ∀ c ∈ [condition, body], hand s g c := by
    rintro g ⟨⟩ c hc
    simp only [mem_cons, not_mem_nil, or_false] at hc
    rcases hc with rfl | rfl
    · exact hcondition
    · exact hbody
  exact ⟨evaluating (.loopTest f condition body :: catches) hcondition
      (forall_mem_cons.mpr ⟨hparts, hcatches⟩),
    evaluating (.loopBody f condition body :: catches) hbody
      (forall_mem_cons.mpr ⟨hparts, hcatches⟩)⟩

theorem quiet {control : Control} (h : ∀ f c, control ≠ .eval f c) :
    Machine.Hands u hand stack ⟨s, depth, stack, control⟩ :=
  ⟨⟨[], rfl, forall_mem_nil _⟩, fun f c hc => absurd hc (h f c)⟩

theorem moves {cause : Cause} (H : Handing u floor hand) (h : Moves u cause s stack m)
    (hfloor : floor ≤ s.frames.size) (hcause : cause.Handed u (hand s) s) :
    m.Hands u hand stack := by
  cases h with
  | calm hst hcalm =>
    refine quiet fun f c hc => ?_
    cases hc
    cases hcalm
  | raise hst hattendants =>
    exact ⟨⟨_, rfl, fun k hk => Cont.arises_of_isAttendant (hattendants k hk)⟩, nofun⟩
  | leave | write => exact quiet nofun
  | @ask _ k _ _ hk =>
    exact ⟨⟨[k], rfl, forall_mem_singleton.mpr (Cont.arises_of_isAnswer hk)⟩, nofun⟩
  | tail _ hf hc => exact evaluating [] (H.codes hcause hf hc) (forall_mem_nil _)
  | @first _ _ _ k _ heq hfirst =>
    subst heq
    exact evaluating [k] (H.part hcause (mem_children_of_first? hfirst).1)
      (forall_mem_singleton.mpr (H.arises_of_first? hfirst hcause))
  | @walk f part t _ k hst _ hf hk hkf hcodes hpart =>
    have hgrow : s.Grows t := .of_frames_eq hst
    refine evaluating [k] ?_ (forall_mem_singleton.mpr ?_)
    · rcases hpart with hpart | hpart
      · exact H.grow (H.codes hcause hf hpart) hgrow
      · exact H.grow (H.part (H.codes hcause hf hpart) mem_cons_self) hgrow
    · refine Cont.arises_of_codes (Or.inl hk) fun g hg c hc => ?_
      cases hkf.symm.trans hg
      exact H.grow (H.codes hcause hf (hcodes c hc)) hgrow
  | @item f c rest _ hitems _ =>
    have hall := H.items hcause hitems
    refine evaluating [.sequence f rest] (hall c mem_cons_self) (forall_mem_singleton.mpr ?_)
    rintro g ⟨⟩ c' hc'
    exact hall c' (mem_cons_of_mem _ hc')
  | test hloop =>
    obtain ⟨hcondition, hbody, hcatches⟩ := H.loop hcause hloop
    exact (loop _ hcondition hbody hcatches).1
  | turn hloop =>
    obtain ⟨hcondition, hbody, hcatches⟩ := H.loop hcause hloop
    exact (loop _ hcondition hbody hcatches).2
  | @method body attendants _ t new hst hb hkind hslots hattendants =>
    have hbelow : ∀ k ∈ attendants, k.Arises u (hand (t.newFrame new).2) (t.newFrame new).2 :=
      fun k hk => Cont.arises_of_isAttendant (hattendants k hk)
    exact evaluating (.method body :: attendants) (H.newFrame (hst ▸ hfloor) hb)
      (forall_mem_cons.mpr ⟨⟨hkind, _, hb⟩, hbelow⟩)
  | @closure body attendants _ t new hst hb hslots hattendants =>
    have hbelow : ∀ k ∈ attendants, k.Arises u (hand (t.newFrame new).2) (t.newFrame new).2 :=
      fun k hk => Cont.arises_of_isAttendant (hattendants k hk)
    have hcode : hand (t.newFrame new).2 t.frames.size body.code := H.newFrame (hst ▸ hfloor) hb
    exact evaluating (.closure t.frames.size body :: attendants) hcode
      (forall_mem_cons.mpr ⟨⟨hcode, Cont.fits_closure_newFrame _ hb⟩, hbelow⟩)
  | opening hst hb =>
    exact evaluating [] (H.newFrame (hst ▸ hfloor) hb) (forall_mem_nil _)

theorem meets {e : Exit} (h : e.Meets k s stack m) (hk : k.Arises u (hand s) s) :
    m.Hands u hand stack := by
  cases h with
  | pass | stop => exact quiet nofun
  | test heq =>
    subst heq
    exact (loop [] (hk _ rfl _ mem_cons_self)
      (hk _ rfl _ (mem_cons_of_mem _ mem_cons_self)) (forall_mem_nil _)).1
  | turn heq =>
    subst heq
    exact (loop [] (hk _ rfl _ mem_cons_self)
      (hk _ rfl _ (mem_cons_of_mem _ mem_cons_self)) (forall_mem_nil _)).2
  | @restart f body _ heq =>
    subst heq
    exact evaluating [_] hk.1 (forall_mem_singleton.mpr hk)

theorem below (H : Handing u floor hand) (h : m.Hands u hand (above ++ base))
    (hst : s.Grows m.store) (habove : ∀ k ∈ above, k.Arises u (hand s) s) :
    m.Hands u hand base := by
  obtain ⟨⟨more, hstack, hmore⟩, hcontrol⟩ := h
  refine ⟨⟨more ++ above, by rw [hstack, append_assoc], ?_⟩, hcontrol⟩
  exact forall_mem_append.mpr ⟨hmore, fun k hk => H.arises_grow (habove k hk) hst⟩

/-- **A step keeps what is in hand**, if it does not take anything off the stack below. -/
theorem step (H : Handing σ.unit floor hand) (h : m.Hands σ.unit hand base)
    (hfloor : floor ≤ m.store.frames.size) (hadvances : σ.Advances m m') (hback : ¬ m.IsBack base) :
    m'.Hands σ.unit hand base := by
  obtain ⟨⟨above, hstack, habove⟩, hcontrol⟩ := h
  cases hadvances with
  | code hmoves =>
    cases hstack
    exact (moves H hmoves hfloor (hcontrol _ _ rfl)).below H hmoves.grows habove
  | call hmoves =>
    cases hstack
    exact (moves H hmoves hfloor trivial).below H hmoves.grows habove
  | value hmoves =>
    cases above with
    | nil => exact absurd ⟨hstack, rfl⟩ hback
    | cons k above =>
      cases hstack
      obtain ⟨hk, habove⟩ := forall_mem_cons.mp habove
      exact (moves H hmoves hfloor hk).below H hmoves.grows habove
  | exit hmeets =>
    cases above with
    | nil => exact absurd ⟨hstack, rfl⟩ hback
    | cons k above =>
      cases hstack
      obtain ⟨hk, habove⟩ := forall_mem_cons.mp habove
      exact (meets hmeets hk).below H hmeets.grows habove

end Machine.Hands

/-! ## Code and the body that it is part of -/

/-- The code is part of the body of the frame. -/
def Owned (u : CodeUnit) (s : Store) (f : FrameId) (c : Code) : Prop :=
  f < s.frames.size ∧ ∃ body, u.body? (s.frame f).body = some body ∧ c ∈ body.code.preorder

theorem handing_owned (u : CodeUnit) : Handing u 0 (Owned u) where
  part := by
    rintro s f c part ⟨hf, body, hb, hc⟩ hpart
    have hinner := preorder_of_mem_children hpart (self_mem_preorder part)
    exact ⟨hf, body, hb, preorder_trans hc hinner⟩
  grow := by
    rintro s t f c ⟨hf, body, hb, hc⟩ hst
    exact ⟨Nat.lt_of_lt_of_le hf hst.size, body, by rw [hst.body f hf]; exact hb, hc⟩
  newFrame := by
    intro t new body _ hb
    obtain ⟨hf, hbody⟩ := Cont.fits_closure_newFrame (s := t) new hb
    exact ⟨hf, body, hbody, self_mem_preorder _⟩

/-- Everything that the machine is yet to run is part of the body of its frame. -/
def Machine.Traced (u : CodeUnit) (m : Machine) : Prop := m.Hands u (Owned u) []

namespace Machine.Traced

variable {σ : Setting} {m m' : Machine}

theorem stack (h : m.Traced u) : ∀ k ∈ m.stack, k.Arises u (Owned u m.store) m.store := by
  obtain ⟨⟨above, hstack, habove⟩, _⟩ := h
  rwa [hstack, append_nil]

theorem control (h : m.Traced u) : ∀ f c, m.control = .eval f c → Owned u m.store f c := h.2

theorem step (h : m.Traced σ.unit) (hadvances : σ.Advances m m') : m'.Traced σ.unit := by
  refine Hands.step (handing_owned σ.unit) h (Nat.zero_le _) hadvances fun hback => ?_
  cases hadvances <;> cases hback.1 <;> cases hback.2

theorem start (hu : σ.unit.WellScoped) (session : Session) : (σ.start session).Traced σ.unit := by
  obtain ⟨body, hb, _⟩ := hu.main
  unfold Setting.start
  rw [hb]
  refine Hands.evaluating [] ?_ (forall_mem_nil _)
  refine (handing_owned σ.unit).newFrame (Nat.zero_le _) ?_
  rw [hu.id hb]
  exact hb

end Machine.Traced

/-! ## The way of an exit -/

/-- The end of a method or closure. -/
def Cont.isEnd : Cont → Bool
  | .method _ | .closure _ _ => true
  | _ => false

/-- How many methods and closures end on the stack. -/
def activations (stack : List Cont) : Nat := stack.countP Cont.isEnd

/-- The exit goes past the continuation. -/
def Cont.Lets (e : Exit) (k : Cont) : Prop :=
  ∀ s depth stack, Setting.unwind s depth stack e k =
    Setting.leaving s (if k.isEnd then depth - 1 else depth) stack e

namespace Setting

variable {σ : Setting}

theorem reaches_leave (h : ∀ k ∈ above, k.Lets e) (s : Store) (below : List Cont) :
    ∀ depth, σ.Reaches (leaving s depth (above ++ below) e)
      (leaving s (depth - activations above) below e) := by
  induction above with
  | nil => exact fun depth => .refl
  | cons k above ih =>
    intro depth
    have hstep : σ.step (leaving s depth (k :: above ++ below) e) =
        .next (leaving s (if k.isEnd then depth - 1 else depth) (above ++ below) e) :=
      congrArg Step.next (h k mem_cons_self s depth (above ++ below))
    have hrest := ih (fun k' hk' => h k' (mem_cons_of_mem _ hk'))
      (if k.isEnd then depth - 1 else depth)
    have hdepth : (if k.isEnd then depth - 1 else depth) - activations above =
        depth - activations (k :: above) := by
      unfold activations
      rw [countP_cons]
      split <;> omega
    rw [hdepth] at hrest
    exact .head hstep hrest

/-- The run ends with the outcome. -/
def Finishes (σ : Setting) (m : Machine) (outcome : Outcome) : Prop :=
  ∃ n session, σ.runFor n m = some (outcome, session)

theorem Finishes.of_reaches {m m' : Machine} (h : σ.Reaches m m') (h' : σ.Finishes m' outcome) :
    σ.Finishes m outcome := by
  obtain ⟨n, hn⟩ := h
  induction n generalizing m with
  | zero =>
    cases hn
    exact h'
  | succ n ih =>
    unfold Setting.after at hn
    split at hn
    · rename_i hstep
      obtain ⟨n', session, hrun⟩ := ih hn
      exact ⟨n' + 1, session, by rw [runFor, hstep]; exact hrun⟩
    · cases hn

theorem finishes_leave {stack : List Cont} (h : ∀ k ∈ stack, k.Lets e) (s : Store) (depth : Nat) :
    σ.Finishes (leaving s depth stack e) (σ.conclude e) := by
  have hreach : σ.Reaches (leaving s depth (stack ++ []) e)
      (leaving s (depth - activations stack) [] e) := reaches_leave h s [] depth
  rw [append_nil] at hreach
  exact .of_reaches hreach ⟨1, _, rfl⟩

end Setting

/-! ## What stops an exit -/

/-- The end of a call of the body, if a `return` can go to it. -/
def Cont.EndsCall (home : Body) : Cont → Prop
  | .method body => body = home
  | .closure _ body => body = home ∧ body.kind = .lambda
  | _ => False

section

variable {hand : FrameId → Code → Prop} {k : Cont}

theorem Cont.Arises.lets_return (h : k.Arises u hand s) (hx : u.ExitsPlaced) {id : ReturnId}
    (hb : u.body? b = some home) (hkind : home.kind ≠ .block) (hid : home.returnId = some id)
    (hk : ¬ k.EndsCall home) (v : Value) : k.Lets (.returnWith id v) := by
  intro s depth stack
  cases k with
  | method body =>
    obtain ⟨hmethod, b', hb'⟩ := h
    have hne : body.returnId ≠ some id := by
      intro hbody
      have heq := hx.returnApart hb' hb (by simp [hmethod]) hkind hbody hid
      rw [heq, hb, Option.some.injEq] at hb'
      exact hk hb'.symm
    simp [unwind, hne, isEnd]
  | closure f body =>
    have hne : (body.kind == .lambda && body.returnId == some id) = false := by
      rw [Bool.and_eq_false_iff]
      by_cases hlambda : body.kind = .lambda
      · refine Or.inr (beq_eq_false_iff_ne.mpr fun hbody => ?_)
        have heq := hx.returnApart h.2.2 hb (by simp [hlambda]) hkind hbody hid
        have hhome := h.2.2
        rw [heq, hb, Option.some.injEq] at hhome
        exact hk ⟨hhome.symm, hlambda⟩
      · exact Or.inl (beq_eq_false_iff_ne.mpr hlambda)
    simp [unwind, closureResult?, hne, isEnd]
  | _ => rfl

/-- The `break` of a block goes past everything but what catches it. -/
theorem Cont.Arises.lets_break (h : k.Arises u hand s) (hx : u.ExitsPlaced) {id : BreakId}
    (hb : u.body? b = some body) (hkind : body.kind = .block) (hid : body.breakId = some id)
    (hk : k ≠ .catchBreak id) (v : Value) : k.Lets (.breakWith id v) := by
  intro s depth stack
  cases k with
  | catchBreak id' =>
    have hne : id ≠ id' := fun heq => hk (heq ▸ rfl)
    simp [unwind, hne, isEnd]
  | closure f own =>
    have hne : (own.kind == .lambda && own.breakId == some id) = false := by
      rw [Bool.and_eq_false_iff]
      by_cases hlambda : own.kind = .lambda
      · refine Or.inr (beq_eq_false_iff_ne.mpr fun hown => ?_)
        have heq := hx.breakApart h.2.2 hb hown hid
        have hsame := h.2.2
        rw [heq, hb, Option.some.injEq] at hsame
        rw [← hsame, hkind] at hlambda
        cases hlambda
      · exact Or.inl (beq_eq_false_iff_ne.mpr hlambda)
    simp [unwind, closureResult?, hne, isEnd]
  | _ => rfl

end

theorem Cont.EndsCall.unwind {id : ReturnId} (h : k.EndsCall home)
    (hid : home.returnId = some id) (s : Store) (depth : Nat) (stack : List Cont) (v : Value) :
    unwind s depth stack (.returnWith id v) k =
      giving s (if k.isEnd then depth - 1 else depth) stack v := by
  cases k with
  | method body =>
    cases h
    simp [unwind, hid, isEnd]
  | closure f body =>
    obtain ⟨rfl, hkind⟩ := h
    simp [unwind, closureResult?, hid, hkind, isEnd]
  | _ => cases h

/-- With any value that the code of an exit may have, on the stack that waits for it: the innermost
continuation that stops the exit gives the value, as far down as the calls that are left; and where
nothing stops it the run ends. -/
def Setting.Ends (σ : Setting) (exit : Cont) (stack : List Cont) (stops : Cont → Prop)
    (outside : Value → Outcome) : Prop :=
  ∀ store depth v,
    (∀ above k below, stack = above ++ k :: below → stops k → (∀ k' ∈ above, ¬ stops k') →
      σ.Reaches (giving store depth (exit :: stack) v)
        (giving store (depth - activations (above ++ [k])) below v)) ∧
    ((∀ k ∈ stack, ¬ stops k) → σ.Finishes (giving store depth (exit :: stack) v) (outside v))

theorem Setting.ends {σ : Setting} {stack : List Cont} (e : Value → Exit)
    (hexit : ∀ s depth v, σ.resume s depth stack v exit = leaving s depth stack (e v))
    (hlets : ∀ k ∈ stack, ¬ stops k → ∀ v, k.Lets (e v))
    (hstops : ∀ k, stops k → ∀ s depth stack v,
      unwind s depth stack (e v) k = giving s (if k.isEnd then depth - 1 else depth) stack v)
    (houtside : ∀ v, σ.conclude (e v) = outside v) : σ.Ends exit stack stops outside := by
  intro store depth v
  have hleave : σ.Reaches (giving store depth (exit :: stack) v) (leaving store depth stack (e v)) :=
    .single (congrArg Step.next (hexit store depth v))
  constructor
  · rintro above k below rfl hk habove
    have hpast : σ.Reaches (leaving store depth (above ++ k :: below) (e v))
        (leaving store (depth - activations above) (k :: below) (e v)) :=
      reaches_leave (fun k' hk' => hlets k' (mem_append_left _ hk') (habove k' hk') v) store
        (k :: below) depth
    have hstop : σ.step (leaving store (depth - activations above) (k :: below) (e v)) =
        .next (giving store (depth - activations (above ++ [k])) below v) := by
      refine congrArg Step.next ((hstops k hk _ _ _ v).trans ?_)
      have hdepth : (if k.isEnd then depth - activations above - 1 else depth - activations above) =
          depth - activations (above ++ [k]) := by
        unfold activations
        rw [countP_append, countP_singleton]
        split <;> omega
      rw [hdepth]
    exact hleave.trans (hpast.trans (.single hstop))
  · intro hnone
    rw [← houtside]
    exact .of_reaches hleave (finishes_leave (fun k hk => hlets k hk (hnone k hk) v) store depth)

/-- **An exit ends the innermost pending call of what it leaves.** In every run of a lowered
program: a `return` belongs to the first body outward from the code's own that is no block, and goes
to the innermost pending call of that body; where there is none it is the program's own and ends the
run with its value, or it ends the run with an error. The `break` of a block goes to the innermost
pending call that the block is written behind, and without one it ends the run with an error. -/
theorem Program.lower_leaves {p : Program} {options : LowerOptions} {σ : Setting}
    (h : p.lower options = .ok σ.unit) {turns : List Turn} {events : List Event}
    {session : Session} (hplay : σ.unit.play σ.capture {} turns = some (events, session))
    {n : Nat} {m : Machine} (hm : σ.after n (σ.start session) = some m) :
    (∀ f id value, m.control = .eval f (.returnWith id value) →
      ∃ b home, σ.unit.Home (m.store.frame f).body b ∧ σ.unit.body? b = some home ∧
        home.kind.isHome = true ∧
        σ.Ends (.returnWith id) m.stack (·.EndsCall home)
          fun v => if b = σ.unit.main then .value v else .fault .returnEscaped) ∧
    ∀ f id value body, m.control = .eval f (.breakWith id value) →
      σ.unit.body? (m.store.frame f).body = some body → body.kind = .block →
      (∃ condition inner bodyFirst, .loop condition inner bodyFirst id ∈ body.code.preorder) ∨
        (.catchBreak id ∈ m.stack → ∃ g call, Owned σ.unit m.store g (.catchBreak id call) ∧
          call.Passes (m.store.frame f).body) ∧
        σ.Ends (.breakWith id) m.stack (· = .catchBreak id) fun _ => .fault .breakEscaped := by
  have hu := lower_wellScoped h
  have hx := exits_of_lower h
  have hs := hu.play (Store.lexical_initial hu) hplay
  have htraced := keeps_after hu (fun _ _ h => h.step) (Machine.Traced.start hu session)
    (Sound.start hu hs) hm
  constructor
  · intro f id value hcontrol
    obtain ⟨_, body, hb, hcode⟩ := htraced.control f _ hcontrol
    obtain ⟨b, hhome⟩ := home_of_lower h _ hb
    obtain ⟨home, hbody, hkind⟩ := hhome.body?
    obtain ⟨q, ⟨hreturns, -⟩, hplaced⟩ := (hx.placed hb).mem_preorder hcode
    have hid : home.returnId = some id := by
      rw [← hx.returnId_eq hu hhome hb hbody]
      exact hreturns.symm.trans hplaced.admits
    have hishome : home.kind.isHome = true := by
      rw [← hx.returns hbody hkind, hid]
      rfl
    refine ⟨b, home, hhome, hbody, hishome, ends (.returnWith id) (fun _ _ _ => rfl) ?_ ?_ ?_⟩
    · intro k hk hne v
      exact (htraced.stack k hk).lets_return hx hbody hkind hid hne v
    · intro k hk s depth stack v
      exact hk.unwind hid s depth stack v
    · -- only the program itself has what a `return` of the program carries
      intro v
      obtain ⟨main, hmain, htop⟩ := hu.main
      have hiff : main.returnId = some id ↔ b = σ.unit.main := by
        constructor
        · intro hmainId
          exact hx.returnApart hbody hmain hkind (by simp [htop]) hid hmainId
        · rintro rfl
          rw [hbody, Option.some.injEq] at hmain
          exact hmain ▸ hid
      simp only [conclude, hmain, Option.bind_some, hiff]
  · intro f id value body hcontrol hb hkind
    obtain ⟨_, body', hb', hcode⟩ := htraced.control f _ hcontrol
    obtain rfl : body' = body := Option.some.inj (hb'.symm.trans hb)
    obtain ⟨q, ⟨-, hbreaks⟩, hplaced⟩ := (hx.placed hb).mem_preorder hcode
    have hq : q.breaks = some id := hplaced.admits
    rcases hbreaks with hown | ⟨condition, inner, bodyFirst, id', hloop, hid'⟩
    · right
      have hid : body'.breakId = some id := hown.symm.trans hq
      refine ⟨fun hk => ?_, ends (.breakWith id) (fun _ _ _ => rfl) ?_ ?_ fun _ => rfl⟩
      · obtain ⟨g, c, ⟨hg, outer, houter, hmem⟩, hcatches⟩ := htraced.stack _ hk
        cases c with
        | catchBreak id' call =>
          obtain rfl : id' = id := hcatches
          exact ⟨g, call, ⟨hg, outer, houter, hmem⟩, hx.passes houter hmem hb hid⟩
        | loop condition inner bodyFirst id' =>
          obtain rfl : id' = id := hcatches
          obtain ⟨_, -, hloop⟩ := (hx.placed houter).mem_preorder hmem
          exact absurd hid (hloop.admits hb)
        | _ => cases hcatches
      · intro k hk hne v
        exact (htraced.stack k hk).lets_break hx hb hkind hid hne v
      · rintro k rfl s depth stack v
        simp [unwind, Cont.isEnd]
    · left
      rw [hq, Option.some.injEq] at hid'
      exact ⟨condition, inner, bodyFirst, hid' ▸ hloop⟩

/-- `def m(f, n) if n == 0 then m(proc { return 42 }, 1); :after else f.call; :inner end end`, and
`m(nil, 0)`: the method calls itself and hands a block down. -/
def Program.handedDown : Program where
  body := [
    Build.define "m" ((Params.empty.require "f").require "n") [
      Build.ifElse (Build.call (Build.localVar "n") "==" [Build.integer 0])
        [Build.selfCall "m" [
            Build.callWithBlock none "proc" []
              (Build.block Params.empty [Build.returnWith (some (Build.integer 42))]),
            Build.integer 1],
          Build.symbol "after"]
        [Build.call (Build.localVar "f") "call" [], Build.symbol "inner"]],
    Build.selfCall "m" [Build.nil, Build.integer 0]]

def Setting.handedDown : Setting := .of Program.handedDown

theorem Program.handedDown_lower : handedDown.lower {} = .ok Setting.handedDown.unit :=
  lower_of_setting rfl (by decide +kernel)

/-- At the `return` of `handedDown` two calls of the method and one of the block are pending, and it
is to end the innermost of those that are calls of its home. -/
theorem Setting.handedDown_ends : Program.handedDown.lower {} = .ok handedDown.unit ∧
    handedDown.unit.play handedDown.capture {} [] = some ([], {}) ∧
    ∃ m f id value b home, handedDown.after 64 (handedDown.start {}) = some m ∧
      m.control = .eval f (.returnWith id value) ∧ activations m.stack = 3 ∧
      handedDown.unit.Home (m.store.frame f).body b ∧ handedDown.unit.body? b = some home ∧
      handedDown.Ends (.returnWith id) m.stack (·.EndsCall home)
        fun v => if b = handedDown.unit.main then .value v else .fault .returnEscaped := by
  refine ⟨Program.handedDown_lower, rfl, ?_⟩
  have hσ := Eq.refl handedDown
  conv at hσ => rhs; cbv
  have hm := Eq.refl (handedDown.after 64 (handedDown.start {}))
  conv at hm => rhs; rw [hσ]; cbv
  obtain ⟨b, home, hhome, hbody, _, hends⟩ :=
    (Program.lower_leaves Program.handedDown_lower CodeUnit.play_nil hm).1 _ _ _ rfl
  exact ⟨_, _, _, _, b, home, hm, rfl, rfl, hhome, hbody, hends⟩

/-- The block of `handedDown` is created by the outer call of the method, and its `return` ends the
inner one: the outer call goes on, and gives `:after` and not 42. -/
theorem Setting.handedDown_leaves :
    handedDown.Finishes (handedDown.start {}) (.value (.symbol "after")) := by
  have hσ := Eq.refl handedDown
  conv at hσ => rhs; cbv
  have hrun := Eq.refl (handedDown.runFor 100 (handedDown.start {}))
  conv at hrun => rhs; rw [hσ]; cbv
  exact ⟨100, _, hrun⟩

end BlockLang
