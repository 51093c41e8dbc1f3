import BlockLang.Machine.Run
import BlockLang.Proofs.Core.Tame
import BlockLang.Proofs.Machine.Frames

/-!
# What is still to be done

The stack of the machine is full of code that has not been run yet, each piece with the frame that
it is to be run in. **Whatever a continuation or the control holds is mentioned by the body of its
frame** (`Holds`), and what is known of a body's mentions is then known of whatever is run.

One thing does not come from the code alone: the arguments that a body reads have to be there. A
body that reads any checks their number first (`Code.Guarded`). Between the start of the body and
the end of the check the machine is in one of three other states, which `Sound` keeps apart.
-/

namespace BlockLang

open List Code

variable {u : CodeUnit} {s t : Store} {f : FrameId} {ms : List Mention} {stack : List Cont}

theorem Store.Works.grows (h : s.Works t) : s.Grows t := by
  obtain ⟨_, _, _, rfl⟩ := h
  exact .of_frames_eq rfl

theorem Store.Works.spread (v : Value) (s : Store) : s.Works (s.spread v).2 := by
  cases v with
  | hash id => exact .newPairs _ s
  | _ => exact .refl s

/-! ## Code and its frame -/

/-- The body of the frame mentions all of it, and the arguments among it are there. -/
structure Holds (u : CodeUnit) (s : Store) (f : FrameId) (ms : List Mention) : Prop where
  inRange : f < s.frames.size
  mentioned : ∀ x ∈ ms, ∃ body, u.body? (s.frame f).body = some body ∧ x ∈ body.code.mentions
  supplied : ∀ i, .argument i ∈ ms → i < (s.frame f).arguments.length

namespace Holds

variable {ns : List Mention} {c : Code}

theorem subset (h : Holds u s f ms) (hsub : ∀ x ∈ ns, x ∈ ms) : Holds u s f ns :=
  ⟨h.inRange, fun x hx => h.mentioned x (hsub x hx), fun i hi => h.supplied i (hsub _ hi)⟩

theorem grow (h : Holds u s f ms) (hst : s.Grows t) : Holds u t f ms where
  inRange := Nat.lt_of_lt_of_le h.inRange hst.size
  mentioned x hx := by
    rw [hst.body f h.inRange]
    exact h.mentioned x hx
  supplied i hi := by
    rw [hst.arguments f h.inRange]
    exact h.supplied i hi

theorem append (hm : Holds u s f ms) (hn : Holds u s f ns) : Holds u s f (ms ++ ns) :=
  ⟨hm.inRange, fun x hx => (mem_append.mp hx).elim (hm.mentioned x) (hn.mentioned x),
    fun i hi => (mem_append.mp hi).elim (hm.supplied i) (hn.supplied i)⟩

theorem left (h : Holds u s f (ms ++ ns)) : Holds u s f ms :=
  h.subset fun _ => mem_append_left _

theorem right (h : Holds u s f (ms ++ ns)) : Holds u s f ns :=
  h.subset fun _ => mem_append_right _

theorem parts {codes : List Code} (h : Holds u s f c.mentions)
    (hparts : ∀ part ∈ codes, part ∈ c.children) : Holds u s f (codes.flatMap mentions) := by
  refine h.subset fun x hx => ?_
  obtain ⟨part, hpart, hx⟩ := mem_flatMap.mp hx
  rw [mentions_eq]
  exact mem_append_right _ (mem_flatMap.mpr ⟨part, hparts part hpart, hx⟩)

theorem part {part : Code} (h : Holds u s f c.mentions) (hpart : part ∈ c.children) :
    Holds u s f part.mentions := by
  have hone : Holds u s f ([part].flatMap mentions) :=
    h.parts fun _ hx => mem_singleton.mp hx ▸ hpart
  simpa using hone

theorem own (h : Holds u s f c.mentions) : Holds u s f c.ownMentions :=
  h.subset fun x hx => by
    rw [mentions_eq]
    exact mem_append_left _ hx

theorem mem {codes : List Code} (h : Holds u s f (codes.flatMap mentions)) (hc : c ∈ codes) :
    Holds u s f c.mentions :=
  h.subset fun _ hx => mem_flatMap.mpr ⟨c, hc, hx⟩

theorem codes {codes more : List Code} (h : Holds u s f (codes.flatMap mentions))
    (hmore : ∀ c ∈ more, c ∈ codes) : Holds u s f (more.flatMap mentions) :=
  h.subset fun _ hx => by
    obtain ⟨c, hc, hx⟩ := mem_flatMap.mp hx
    exact mem_flatMap.mpr ⟨c, hmore c hc, hx⟩

end Holds

/-- The variable, seen from the frame `f`, is in the frame `owner`: it is found there, the body of
that frame is the one at the variable's level, the slot has its name, and the frame has as many
slots as its body. -/
structure Resolves (u : CodeUnit) (s : Store) (f : FrameId) (l : Local) (owner : FrameId) :
    Prop where
  found : s.frameAt? l.level f = some owner
  inRange : owner < s.frames.size
  ancestor : u.ancestor? l.level (s.frame f).body = some (s.frame owner).body
  slot : ∃ body, u.body? (s.frame owner).body = some body ∧ body.slots[l.slot]? = some l.name ∧
    (s.frame owner).slots.size = body.slots.length

theorem Resolves.slot_lt (h : Resolves u s f l owner) : l.slot < (s.frame owner).slots.size := by
  obtain ⟨body, _, hname, hsize⟩ := h.slot
  rw [hsize]
  exact (List.getElem?_eq_some_iff.mp hname).1

theorem Holds.resolves (hu : u.WellScoped) (hs : s.Lexical u) (h : Holds u s f [.variable l]) :
    ∃ owner, Resolves u s f l owner := by
  obtain ⟨body, hb, hl⟩ := h.mentioned _ mem_cons_self
  obtain ⟨owner, hfound, hlt, hanc⟩ := hs.frameAt? h.inRange (hu.link hb hl)
  obtain ⟨a, ownerBody, ha, howner, hname⟩ := hu.slot hb hl
  rw [hanc, Option.some.injEq] at ha
  rw [← ha] at howner
  exact ⟨owner, hfound, hlt, hanc, ownerBody, howner, hname, hs.slots owner hlt howner⟩

/-! ## Continuations -/

/-- What is mentioned when the operands are there. -/
def Purpose.mentions : Purpose → List Mention
  | .call _ _ block => block.toList.flatMap Code.mentions
  | .super block _ => .super :: block.toList.flatMap Code.mentions
  | .array | .yield => []

/-- The keys and values of a hash, in order. -/
def Code.ofPairs (pairs : List (Code × Code)) : List Code :=
  pairs.flatMap fun (key, value) => [key, value]

/-- A continuation that can be resumed in the store. -/
def Cont.Fits (u : CodeUnit) (s : Store) : Cont → Prop
  | .operand f purpose _ _ rest => Holds u s f (purpose.mentions ++ rest.flatMap Code.mentions)
  | .hashKey f _ value rest => Holds u s f ((value :: Code.ofPairs rest).flatMap Code.mentions)
  | .hashValue f _ _ rest => Holds u s f ((Code.ofPairs rest).flatMap Code.mentions)
  | .sequence f rest => Holds u s f (rest.flatMap Code.mentions)
  | .branch f thenBranch elseBranch => Holds u s f ([thenBranch, elseBranch].flatMap Code.mentions)
  | .andThen f right | .orElse f right => Holds u s f right.mentions
  | .writeLocal f target => Holds u s f [.variable target]
  | .receiver f _ args block => Holds u s f ((args ++ block.toList).flatMap Code.mentions)
  | .superBlock f _ _ => Holds u s f [.super]
  | .superclass _ isModule b =>
    ∃ outer, (∃ p, u.body? p = some outer) ∧
      .body (if isModule then .moduleBody else .classBody) b ∈ outer.code.mentions
  | .loopTest f condition body | .loopBody f condition body =>
    Holds u s f ([condition, body].flatMap Code.mentions)
  | .closure f body => f < s.frames.size ∧ u.body? (s.frame f).body = some body
  | _ => True

theorem Cont.Fits.grow {k : Cont} (h : k.Fits u s) (hst : s.Grows t) : k.Fits u t := by
  cases k
  case closure f body =>
    exact ⟨Nat.lt_of_lt_of_le h.1 hst.size, by rw [hst.body f h.1]; exact h.2⟩
  case superclass => exact h
  case operand | hashKey | hashValue | sequence | branch | andThen | orElse | writeLocal |
      receiver | superBlock | loopTest | loopBody =>
    exact Holds.grow h hst
  all_goals trivial

theorem Cont.fits_closure_newFrame (new : Frame) (hb : u.body? new.body = some body) :
    (Cont.closure s.frames.size body).Fits u (s.newFrame new).2 := by
  refine ⟨?_, ?_⟩
  · rw [Store.size_newFrame]
    exact Nat.lt_succ_self _
  · rw [Store.frame_newFrame_self]
    exact hb

/-- What the machine does next can be done. -/
def Control.Fits (u : CodeUnit) (s : Store) : Control → Prop
  | .eval f c => Holds u s f c.mentions
  | .leave e => e.fault.isInternal = false
  | _ => True

/-! ## The store and the stack -/

/-- A store in which the frames are linked as they should be, and a stack that can be resumed in
it. -/
structure Ready (u : CodeUnit) (s : Store) (stack : List Cont) : Prop where
  lexical : s.Lexical u
  fits : ∀ k ∈ stack, k.Fits u s

namespace Ready

variable {k : Cont}

theorem pop (h : Ready u s (k :: stack)) : Ready u s stack :=
  ⟨h.lexical, fun k' hk' => h.fits k' (mem_cons_of_mem _ hk')⟩

theorem top (h : Ready u s (k :: stack)) : k.Fits u s :=
  h.fits k mem_cons_self

variable (h : Ready u s stack)
include h

theorem push (hk : k.Fits u s) : Ready u s (k :: stack) :=
  ⟨h.lexical, fun k' hk' => (mem_cons.mp hk').elim (fun heq => heq ▸ hk) (h.fits k')⟩

theorem move (ht : t.Lexical u) (hst : s.Grows t) : Ready u t stack :=
  ⟨ht, fun k hk => (h.fits k hk).grow hst⟩

theorem same (hframes : t.frames = s.frames)
    (hclosures : t.closures = s.closures) (hclasses : t.classes = s.classes) :
    Ready u t stack :=
  h.move (h.lexical.update hframes hclosures fun c name b hb => Or.inl (by
    rwa [Store.classInfo, hclasses] at hb)) (.of_frames_eq hframes)

theorem works (hst : s.Works t) : Ready u t stack := by
  obtain ⟨_, _, _, rfl⟩ := hst
  exact h.same rfl rfl rfl

theorem newFrame (hplaced : Placed u s new.body new.parent new.invocation)
    (hbody : u.body? new.body = some body)
    (hslots : new.slots = Store.blankSlots body.slots.length) :
    Ready u (s.newFrame new).2 stack :=
  h.move (h.lexical.newFrame hplaced hbody hslots) (Store.grows_newFrame new)

theorem classes (hframes : t.frames = s.frames) (hclosures : t.closures = s.closures)
    (hmethods : ∀ c {name b}, (t.classInfo c).methods.get? name = some b →
      (s.classInfo c).methods.get? name = some b ∨ u.IsMethod b) : Ready u t stack :=
  h.move (h.lexical.update hframes hclosures hmethods) (.of_frames_eq hframes)

theorem modifyClass (id : ClassId) (hchange : ∀ info, (change info).methods = info.methods) :
    Ready u (s.modifyClass id change) stack :=
  h.classes rfl rfl fun c name b hb => by
    rcases s.classInfo_modifyClass id c change with heq | heq <;> rw [heq] at hb
    · rw [hchange] at hb
      exact Or.inl hb
    · exact Or.inl hb

theorem define (id : ClassId) (name : String) (hb : u.IsMethod b) :
    Ready u (s.define id name b) stack :=
  h.classes rfl rfl fun c name' b' hb' => by
    rcases s.classInfo_modifyClass id c _ with heq | heq <;>
      rw [Store.define, heq] at hb'
    · rcases Table.get?_insert hb' with rfl | hold
      · exact Or.inr hb
      · exact Or.inl hold
    · exact Or.inl hb'

theorem newClass (hnew : new.methods = {}) : Ready u (s.newClass new).2 stack :=
  h.classes rfl rfl fun c name b hb => by
    rcases s.classInfo_newClass c new with heq | heq <;> rw [heq] at hb
    · rw [hnew] at hb
      simp [Table.get?] at hb
    · exact Or.inl hb

theorem setInstanceVar (self : Value) (name : String) (v : Value) :
    Ready u (s.setInstanceVar self name v) stack := by
  cases self with
  | object id => exact h.same rfl rfl rfl
  | classRef id => exact h.modifyClass id fun _ => rfl
  | _ => exact h

end Ready

/-! ## The machine -/

/-- The frame is about to check its arguments, and the body reads no others than those that the
check asks for. -/
structure Guards (u : CodeUnit) (s : Store) (f : FrameId) (arity : Arity) (rest : List Code) :
    Prop where
  inRange : f < s.frames.size
  body : ∃ body, u.body? (s.frame f).body = some body ∧
    body.code = .sequence (.checkArity arity :: rest) ∧
    ∀ i, .argument i ∈ body.code.mentions → i < arity.pre

namespace Guards

variable {arity : Arity} {rest : List Code}

theorem holds_check (h : Guards u s f arity rest) : Holds u s f (checkArity arity).mentions := by
  rw [mentions_eq]
  exact ⟨h.inRange, by simp [ownMentions, children], by simp [ownMentions, children]⟩

theorem holds_rest (h : Guards u s f arity rest) (hpre : arity.pre ≤ (s.frame f).arguments.length) :
    Holds u s f (rest.flatMap mentions) := by
  obtain ⟨body, hb, hcode, hguard⟩ := h.body
  have hrest : ∀ x ∈ rest.flatMap mentions, x ∈ body.code.mentions := by
    intro x hx
    rw [hcode, mentions_sequence, flatMap_cons]
    exact mem_append_right _ hx
  exact ⟨h.inRange, fun x hx => ⟨body, hb, hrest x hx⟩,
    fun i hi => Nat.lt_of_lt_of_le (hguard i (hrest _ hi)) hpre⟩

end Guards

/-- The machine is sound: nothing that it holds refers to something that is not there. -/
inductive Sound (u : CodeUnit) : Machine → Prop
  | steady {s : Store} {depth : Nat} {stack : List Cont} {control : Control} :
      Ready u s stack → control.Fits u s → Sound u ⟨s, depth, stack, control⟩
  /-- At the start of a body that checks its arguments. -/
  | entering {s : Store} {depth : Nat} {stack : List Cont} {f : FrameId} {arity : Arity}
      {rest : List Code} : Ready u s stack → Guards u s f arity rest →
      Sound u ⟨s, depth, stack, .eval f (.sequence (.checkArity arity :: rest))⟩
  /-- At the check, with the rest of the body to come. -/
  | checking {s : Store} {depth : Nat} {stack : List Cont} {f : FrameId} {arity : Arity}
      {rest : List Code} : Ready u s stack → Guards u s f arity rest →
      Sound u ⟨s, depth, .sequence f rest :: stack, .eval f (.checkArity arity)⟩
  /-- After a failed check. The rest of the body is not run. -/
  | refused {s : Store} {depth : Nat} {stack : List Cont} {f : FrameId} {rest : List Code}
      {fault : Fault} : Ready u s stack → fault.isInternal = false →
      Sound u ⟨s, depth, .sequence f rest :: stack, .leave (.raise fault)⟩

theorem Sound.lexical (h : Sound u m) : m.store.Lexical u := by
  cases h with
  | steady h _ | entering h _ | checking h _ | refused h _ => exact h.lexical

end BlockLang
