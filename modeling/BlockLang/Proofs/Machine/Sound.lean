import BlockLang.Proofs.Machine.Pending

/-!
# Calls and parts of code are sound

What a step is made of leads from sound machines to sound machines, whichever frames closures keep
beyond those that they have to. The lemmas follow the functions: calls first, then the parts of
code. `Sound.step` puts them together.
-/

namespace BlockLang

open List Setting

variable {u : CodeUnit} {s t : Store} {depth : Nat} {stack : List Cont}

theorem Store.Lexical.findMethod? (hs : s.Lexical u) {id : ClassId} {name : String}
    (h : s.findMethod? id name = some (owner, b)) : u.IsMethod b := by
  obtain ⟨_, _, hc⟩ := exists_of_findSome?_eq_some h
  rw [Option.map_eq_some_iff] at hc
  obtain ⟨b', hb', heq⟩ := hc
  cases heq
  exact hs.method owner hb'

theorem Store.Lexical.findAbove? (hs : s.Lexical u) {id : ClassId} {name : String}
    (h : s.findAbove? id name = some (owner, b)) : u.IsMethod b := by
  obtain ⟨parent, _, hparent⟩ := Option.bind_eq_some_iff.mp h
  exact hs.findMethod? hparent

namespace Sound

/-! ## Small steps -/

variable {f : FrameId} {v receiver : Value} {name label : String} {args : List Value}
  {block : Option ClosureId}

section

variable (h : Ready u s stack)

include h

theorem giving : Sound u (giving s depth stack v) :=
  .steady h trivial

theorem givingNew (hw : s.Works made.2) : Sound u (givingNew depth stack made) :=
  .steady (h.works hw) trivial

theorem raising (hf : fault.isInternal = false) : Sound u (raising s depth stack fault) :=
  .steady h hf

theorem halting : Sound u (halting s depth stack c) :=
  .steady h trivial

theorem leaving (he : e.fault.isInternal = false) : Sound u (leaving s depth stack e) :=
  .steady h he

theorem evaluating (hc : Holds u s f c.mentions) :
    Sound u (evaluating s depth stack f c) :=
  .steady h hc

theorem part (hc : Holds u s f c.mentions) (hk : k.Fits u s) :
    Sound u (Setting.evaluating s depth (k :: stack) f c) :=
  .steady (h.push hk) hc

/-! ## Code and pairs one after the other -/

theorem entries (hc : Holds u s f ((Code.ofPairs pairs).flatMap Code.mentions)) :
    Sound u (Setting.entries s depth stack f done pairs) := by
  unfold Setting.entries
  split
  · exact .givingNew h ⟨_, _, _, rfl⟩
  · exact .part h (hc.mem mem_cons_self) (hc.codes fun _ => mem_cons_of_mem _)

theorem items (hc : Holds u s f (codes.flatMap Code.mentions)) :
    Sound u (Setting.items s depth stack f codes) := by
  unfold Setting.items
  split
  · exact .giving h
  · exact .evaluating h (hc.mem mem_cons_self)
  · exact .part h (hc.mem mem_cons_self) (hc.codes fun _ => mem_cons_of_mem _)

theorem loopTest (hc : Holds u s f ([condition, body].flatMap Code.mentions)) :
    Sound u (loopTest s depth stack f condition body) :=
  .part h (hc.mem mem_cons_self) hc

theorem loopBody (hc : Holds u s f ([condition, body].flatMap Code.mentions)) :
    Sound u (loopBody s depth stack f condition body) :=
  .part h (hc.mem (mem_cons_of_mem _ mem_cons_self)) hc

theorem cast : Sound u (Setting.cast s depth stack f onNil v) := by
  unfold Setting.cast
  split
  · exact .givingNew h ⟨_, _, _, rfl⟩
  · exact .givingNew h ⟨_, _, _, rfl⟩
  · split
    · exact .steady (h.push (by trivial)) trivial
    · exact .givingNew h ⟨_, _, _, rfl⟩

theorem shouldDestructure : Sound u (Setting.shouldDestructure s depth stack f) := by
  unfold Setting.shouldDestructure
  split
  · exact .giving h
  · split
    · exact .steady (h.push (by trivial)) trivial
    · exact .giving h
  · exact .giving h

end

variable {σ : Setting} (hu : σ.unit.WellScoped) (h : Ready σ.unit s stack)

include hu h

/-! ## Calls -/

theorem enter (hf : f < s.frames.size) (hb : σ.unit.body? (s.frame f).body = some body) :
    Sound σ.unit (Setting.evaluating s depth stack f body.code) := by
  rcases hu.guarded hb with hnone | ⟨arity, rest, hcode, hpre⟩
  · exact .evaluating h ⟨hf, fun x hx => ⟨body, hb, hx⟩, fun i hi => absurd hi (hnone i)⟩
  · have hguards : Guards σ.unit s f arity rest := ⟨hf, body, hb, hcode, hpre⟩
    rw [hcode]
    exact .entering h hguards

theorem enterNew (hplaced : Placed σ.unit s new.body new.parent new.invocation)
    (hb : σ.unit.body? new.body = some body)
    (hslots : new.slots = Store.blankSlots body.slots.length)
    (hk : k.Fits σ.unit (s.newFrame new).2) :
    Sound σ.unit (Setting.evaluating (s.newFrame new).2 depth (k :: stack) s.frames.size body.code) := by
  refine .enter hu ((h.newFrame hplaced hb hslots).push hk) ?_ ?_
  · rw [Store.size_newFrame]
    exact Nat.lt_succ_self _
  · rw [Store.frame_newFrame_self]
    exact hb

theorem invokeMethod {id : BodyId} (hm : σ.unit.IsMethod id) :
    Sound σ.unit (σ.invokeMethod s depth stack receiver owner id name args block) := by
  obtain ⟨body, hb, hkind⟩ := hm
  unfold Setting.invokeMethod
  rw [hb]
  simp only
  split
  · exact .raising h rfl
  · exact .enterNew hu h (.root hu hb (by rw [hkind]; rfl) fun _ => rfl) hb rfl trivial

theorem invokeClosure {id : ClosureId} :
    Sound σ.unit (σ.invokeClosure s depth stack id args block) := by
  have hplaced := h.lexical.closure id
  obtain ⟨body, hb⟩ := hplaced.known
  unfold Setting.invokeClosure
  simp only
  rw [hb]
  simp only
  split
  · exact .raising h rfl
  · refine .enterNew hu h ⟨⟨body, hb⟩, fun hb' hc => ?_, hplaced.invocation⟩ hb rfl ?_
    · -- a body that keeps the frame around it is linked to what the closure keeps
      have hkeeps : σ.keepsFrame body = true := by
        rw [hb, Option.some.injEq] at hb'
        rw [Setting.keepsFrame, hb', hc, Bool.true_or]
      rw [if_pos hkeeps]
      exact hplaced.link hb' hc
    · exact Cont.fits_closure_newFrame _ hb

theorem invokeBlock : Sound σ.unit (σ.invokeBlock s depth stack block args) := by
  cases block with
  | none => exact .raising h rfl
  | some id => exact .invokeClosure hu h

theorem iterate : Sound σ.unit (σ.iterate s depth stack block iteration) := by
  unfold Setting.iterate
  split
  · exact .invokeBlock hu (h.push (by trivial))
  · exact .givingNew h (.result iteration s)

theorem construct {id : ClassId} : Sound σ.unit (σ.construct s depth stack id args block) := by
  have hnew : Ready σ.unit (s.newObject id).2 stack := h.same rfl rfl rfl
  unfold Setting.construct
  simp only
  split
  · exact .raising h rfl
  · split
    · rename_i hfound
      exact .invokeMethod hu (hnew.push (by trivial)) (hnew.lexical.findMethod? hfound)
    · split
      · exact .giving hnew
      · exact .raising hnew rfl

theorem callCore : Sound σ.unit (σ.callCore s depth stack f receiver name label args block) := by
  have htame : (Core.method (s.frame f) receiver name args block).Tame := inferInstance
  have hworks := htame.works s
  have hfault := htame.fault s
  unfold Setting.callCore
  generalize (Core.method (s.frame f) receiver name args block).run.run s = done at hworks hfault ⊢
  obtain ⟨reply, t⟩ := done
  have hnew : Ready σ.unit t stack := h.works hworks
  simp only
  split
  · exact .raising hnew (Fault.isInternal_of_isForeign (hfault _ rfl))
  · exact .halting hnew
  · exact .raising hnew rfl
  · exact .giving hnew
  · exact .iterate hu hnew
  · exact .invokeClosure hu hnew
  · exact .construct hu hnew
  · exact .steady hnew trivial

theorem call : Sound σ.unit (σ.call s depth stack f receiver name args block) := by
  unfold Setting.call
  split
  · rename_i hfound
    exact .invokeMethod hu h (h.lexical.findMethod? hfound)
  · exact .callCore hu h

theorem callSuper (hf : Holds σ.unit s f [.super]) :
    Sound σ.unit (σ.callSuper s depth stack f args block) := by
  obtain ⟨body, hb, hm⟩ := hf.mentioned _ mem_cons_self
  have hcall := (h.lexical.frame f hf.inRange).invocation (hu.super hb hm)
  unfold Setting.callSuper
  simp only
  split
  · rename_i hnone
    rw [hnone] at hcall
    exact absurd hcall (by simp)
  · split
    · rename_i hfound
      exact .invokeMethod hu h (h.lexical.findAbove? hfound)
    · exact .callCore hu h

/-! ## Parts of code -/

theorem operands (hc : Holds σ.unit s f (purpose.mentions ++ codes.flatMap Code.mentions)) :
    Sound σ.unit (σ.operands s depth stack f purpose done codes) := by
  unfold Setting.operands
  split
  · have hsplat := hc.right.mem mem_cons_self
    refine .part h (hsplat.part mem_cons_self) ?_
    exact hc.left.append (hc.right.codes fun _ => mem_cons_of_mem _)
  · refine .part h (hc.right.mem mem_cons_self) ?_
    exact hc.left.append (hc.right.codes fun _ => mem_cons_of_mem _)
  · split
    · exact .givingNew h ⟨_, _, _, rfl⟩
    · exact .steady h trivial
    · exact .part h (hc.left.mem mem_cons_self) trivial
    · exact .callSuper hu h hc.left
    · have hsuper : Holds _ _ _ ([.super] ++ [_].flatMap Code.mentions) := hc.left
      exact .part h (hsuper.right.mem mem_cons_self) hsuper.left
    · exact .invokeBlock hu h

/-- The body that is opened is that of a class or module, which stands in nothing. -/
theorem openClass (houter : σ.unit.body? p = some outer)
    (hm : .body (if isModule then .moduleBody else .classBody) b ∈ outer.code.mentions) :
    Sound σ.unit (σ.openClass s depth stack name superclass isModule b) := by
  obtain ⟨body, hb, hkind⟩ := hu.body houter hm
  have hroot : body.kind.isClosure = false := by
    rw [hkind]
    cases isModule <;> rfl
  have hmethod : body.kind ≠ .method := by
    rw [hkind]
    cases isModule <;> decide
  unfold Setting.openClass
  rw [hb]
  split
  rename_i classId t hopened
  have ht : Ready σ.unit t stack := by
    split at hopened
    · cases hopened
      exact h
    · cases hopened
      exact h.newClass rfl
  have hplaced : Placed σ.unit t b none none :=
    .root hu hb hroot fun heq => absurd heq hmethod
  refine .enter hu (ht.newFrame hplaced hb rfl) ?_ ?_
  · rw [Store.size_newFrame]
    exact Nat.lt_succ_self _
  · exact (congrArg (fun new => σ.unit.body? (Frame.body new)) (Store.frame_newFrame_self _)).trans hb

theorem newClosure (hc : Holds σ.unit s f (Code.closure b lambda).mentions) :
    Sound σ.unit (σ.newClosure s depth stack f b lambda) := by
  obtain ⟨outer, houter, hm⟩ := hc.own.mentioned _ mem_cons_self
  obtain ⟨body, hb, hkind⟩ := hu.body houter hm
  have hclosure : body.kind.isClosure = true := by
    rw [hkind]
    cases lambda <;> rfl
  have hparent : σ.unit.parent? b = some (s.frame f).body :=
    hu.parent houter hm (hkind ▸ hclosure)
  have hplaced : Placed σ.unit s b (if σ.keepsFrame body then some f else none)
      (s.frame f).invocation := by
    refine ⟨⟨body, hb⟩, fun hb' hcaptured => ?_, fun hunder => ?_⟩
    · rw [hb, Option.some.injEq] at hb'
      rw [Setting.keepsFrame, hb', hcaptured, Bool.true_or, if_pos rfl]
      exact ⟨f, rfl, hc.inRange, hparent⟩
    · exact (h.lexical.frame f hc.inRange).invocation
        (CodeUnit.WellScoped.underMethod_of_parent? hb hclosure hparent hunder)
  unfold Setting.newClosure
  rw [hb]
  exact .steady (h.move (h.lexical.newClosure hplaced) (.of_frames_eq rfl)) trivial

end Sound

end BlockLang
