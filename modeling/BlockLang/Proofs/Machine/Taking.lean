import Mathlib
import BlockLang.Proofs.Machine.Arrays

/-!
# Items are taken from arrays

Several steps lie between the code that makes an array, or asks for one, and the first code that
takes an item from it. `Setting.Until` follows the machine through them, and a `Setting.Round` leads
from one settled machine to the next. `Machine.Settled.round` is the step that all of this is for,
and `Program.lower_takes` what follows for the runs of a lowered program: items are taken from
arrays, or from the variable of a block that got an object.
-/

namespace BlockLang

variable {m : Machine}

open Setting

variable {u : CodeUnit} {refused : FrameId → Prop} {s : Store} {f : FrameId}

/-! ## Rounds -/

namespace Setting

variable {σ : Setting} {P Q : Machine → Prop} {m m' : Machine}

/-- The machine comes to `P` step by step, and keeps `Q` on the way. -/
inductive Until (σ : Setting) (Q P : Machine → Prop) : Machine → Prop
  | now {m : Machine} : P m → Until σ Q P m
  | later {m : Machine} : Q m →
      (∀ m', Sound σ.unit m' → σ.step m = .next m' → Until σ Q P m') → Until σ Q P m

theorem Until.next (m' : Machine) (hm : Q m) (hstep : σ.step m = .next m')
    (h : Sound σ.unit m' → Until σ Q P m') : Until σ Q P m := by
  refine .later hm fun next hsound hnext => ?_
  cases Step.next.inj (hstep.symm.trans hnext)
  exact h hsound

theorem Until.reaches (hu : σ.unit.WellScoped)
    (hP : ∀ m', σ.Reaches m m' → P m' → Sound σ.unit m' → Q m' ∧
      ∀ m'', Sound σ.unit m'' → σ.step m' = .next m'' → Until σ Q P m'')
    (h : P m) (hsound : Sound σ.unit m) (hreaches : σ.Reaches m m') : Q m' := by
  have hall : Until σ Q P m' ∧ Sound σ.unit m' := by
    refine Reaches.induct (P := fun m₁ => Until σ Q P m₁ ∧ Sound σ.unit m₁) ⟨.now h, hsound⟩
      (fun m₁ m₂ hreached hm₁ hstep => ?_) hreaches
    have hnext := hm₁.2.step hu
    rw [hstep] at hnext
    refine ⟨?_, hnext⟩
    cases hm₁.1 with
    | now hnow => exact (hP m₁ hreached hnow hm₁.2).2 m₂ hnext hstep
    | later _ hlater => exact hlater m₂ hnext hstep
  cases hall.1 with
  | now hnow => exact (hP m' hreaches hnow hall.2).1
  | later hlater _ => exact hlater

end Setting

/-- The node takes something from an array. -/
def Code.takes : Code → Bool
  | .index _ _ | .slice _ _ _ | .atLeast _ _ => true
  | _ => false

/-- What takes items next takes them from a known array, and gets the array. -/
structure Machine.Guarded (u : CodeUnit) (refused : FrameId → Prop) (m : Machine) : Prop where
  keeps : m.store.KeepsArrays u
  takes : ∀ f c, m.control = .eval f c → c.takes = true →
    ∃ array, c.TakesFrom array ∧ m.store.Knows u refused f array
  gets : ∀ v k rest, m.control = .give v → m.stack = k :: rest → k.takes = true →
    v.IsArray ∨ ∃ f, refused f

theorem Machine.Guarded.plain (hkeeps : m.store.KeepsArrays u)
    (hcode : ∀ f c, m.control = .eval f c → c.takes = false)
    (hvalue : ∀ v k rest, m.control = .give v → m.stack = k :: rest → k.takes = false) :
    m.Guarded u refused := by
  refine ⟨hkeeps, fun f c hcontrol htakes => ?_, fun v k rest hcontrol hstack htakes => ?_⟩
  · rw [hcode f c hcontrol] at htakes
    cases htakes
  · rw [hvalue v k rest hcontrol hstack] at htakes
    cases htakes

theorem Waits.not_takes {known : Known} {rest : List Cont} (h : Waits asks known (k :: rest)) :
    k.takes = false := by
  cases h with
  | simple _ hk _ _ =>
    cases k with
    | index | slice | atLeast => exact absurd hk id
    | _ => rfl
  | _ => rfl

theorem Machine.Poised.guarded {known : Known} (h : m.Poised u refused known) :
    m.Guarded u refused := by
  refine ⟨h.bears.keeps, fun f c hcontrol htakes => ?_, fun v k rest _ hstack htakes => ?_⟩
  · obtain ⟨limit, hc⟩ := h.control f c hcontrol
    cases hc with
    | take harray hfrom => exact ⟨_, hfrom, h.bears.knows f _ harray⟩
    | node hneutral _ =>
      cases c with
      | index | slice | atLeast => cases hneutral
      | _ => cases htakes
    | _ => cases htakes
  · have hwaits := h.waits
    rw [hstack] at hwaits
    rw [hwaits.not_takes] at htakes
    cases htakes

section Rounds

variable {l : Local}

variable {σ : Setting} {known : Known} {depth : Nat} {stack : List Cont}

/-- A machine between two that are settled. -/
abbrev Setting.Round (σ : Setting) (refused : FrameId → Prop) : Machine → Prop :=
  σ.Until (Machine.Guarded σ.unit refused) (Machine.Settled σ.unit refused)

theorem Sound.resolved (hu : σ.unit.WellScoped) {v : Value}
    (h : Sound σ.unit ⟨s, depth, k :: stack, .give v⟩) : (Cause.value k).Resolved σ.unit s := by
  intro f target owner heq howner
  cases heq
  have hholds := h.holds_of_accesses (Or.inr ⟨v, stack, rfl, rfl⟩)
  obtain ⟨owner', hresolves⟩ := hholds.resolves hu h.lexical
  have hsame : owner' = owner := by
    unfold Store.frameOf at howner
    rw [hresolves.found] at howner
    cases howner
    rfl
  subst hsame
  obtain ⟨body, hb, hname, _⟩ := hresolves.slot
  exact ⟨⟨hresolves.inRange, body, hb, hname⟩, hresolves.slot_lt⟩

theorem Store.frameOf_self (s : Store) (f : FrameId) (h : l.level = 0) : s.frameOf f l = .ok f := by
  rw [frameOf, h]
  rfl

theorem Holds.named (h : Holds σ.unit s f [.variable l]) (hu : σ.unit.WellScoped)
    (hs : s.Lexical σ.unit) (hlevel : l.level = 0) :
    s.Named σ.unit f l.slot l.name := by
  obtain ⟨owner, hresolves⟩ := h.resolves hu hs
  have howner : owner = f := by
    have hfound := hresolves.found
    rw [hlevel] at hfound
    exact (Option.some.inj hfound).symm
  subst howner
  obtain ⟨body, hb, hname, _⟩ := hresolves.slot
  exact ⟨hresolves.inRange, body, hb, hname⟩

theorem Setting.step_read (s : Store) (hlevel : l.level = 0) :
    σ.step (evaluating s depth stack f (.readLocal l)) =
      .next (giving s depth stack (s.slot f l.slot)) := by
  simp only [evaluating, step, eval, s.frameOf_self f hlevel]

theorem Setting.step_argument (s : Store) :
    σ.step (evaluating s depth stack f (.argument 0 .isNil)) =
      .next (giving s depth stack ((s.frame f).arguments.getD 0 .nil)) := by
  simp only [evaluating, step, eval]
  cases (s.frame f).arguments <;> rfl

theorem Setting.step_write {v : Value} (hlevel : l.level = 0)
    (hslot : l.slot < (s.frame f).slots.size) :
    σ.step (giving s depth (.writeLocal f l :: stack) v) =
      .next (giving (s.setSlot f l.slot v) depth stack v) := by
  have hroom : s.hasRoom f l.slot = true := by simp [Store.hasRoom, hslot]
  simp only [giving, step, resume, s.frameOf_self f hlevel, hroom, if_true]

namespace Machine

variable {v : Value} {array : Local} {rest : List Code}

theorem Guarded.evaluating (hkeeps : s.KeepsArrays u) (hc : c.takes = false) :
    (evaluating s depth stack f c).Guarded u refused := by
  refine .plain hkeeps (fun g c' h => ?_) fun v k rest h => nomatch h
  cases h
  exact hc

theorem Guarded.giving (hkeeps : s.KeepsArrays u) (hk : k.takes = false) :
    (giving s depth (k :: stack) v).Guarded u refused := by
  refine .plain hkeeps (fun g c h => nomatch h) fun v' k' rest _ h => ?_
  cases h
  exact hk

theorem Guarded.leaving (hkeeps : s.KeepsArrays u) :
    (leaving s depth stack e).Guarded u refused :=
  .plain hkeeps (fun _ _ h => nomatch h) fun _ _ _ h => nomatch h

/-- An exit passes what has nothing to do with it. -/
theorem round_pass {m : Machine} (hkeeps : m.store.KeepsArrays σ.unit)
    (hm : m = leaving s depth (k :: stack) e)
    (hpass : unwind s depth stack e k = leaving s depth stack e)
    (h : σ.Round refused (leaving s depth stack e)) : σ.Round refused m := by
  subst hm
  exact .next _ (.leaving hkeeps) (congrArg Step.next hpass) fun _ => h

theorem round_cast
    (hnew : ∀ items, Sound σ.unit (givingNew depth stack (s.newArray items)) →
      σ.Round refused (givingNew depth stack (s.newArray items)))
    (hask : ∀ o, v = .object o →
      σ.Round refused ⟨s, depth, .castAnswer v :: stack, .call f v "to_ary" [] none⟩) :
    Sound σ.unit (Setting.cast s depth stack f onNil v) →
      σ.Round refused (Setting.cast s depth stack f onNil v) := by
  unfold Setting.cast
  split
  · exact hnew _
  · exact hnew _
  · split
    · rename_i hasks
      intro _
      cases v with
      | object o => exact hask o rfl
      | _ => cases hasks
    · exact hnew _

section

variable {nothing items positional : Code} {limit : Nat} (hu : σ.unit.WellScoped)
  (hs : s.Bears σ.unit refused known) (hstack : Waits (s.Asks σ.unit) known stack)

include hs hstack

theorem round_take (harray : array ∈ known f) (hc : c.TakesFrom array) :
    σ.Round refused (σ.eval s depth stack f c) := by
  have hknows := hs.knows f array harray
  have hgets : (s.slot f array.slot).IsArray ∨ ∃ f, refused f := by
    cases hknows with
    | spread _ _ hholds => exact Or.inl hholds
    | unpacked _ _ hholds => exact hholds.imp id fun h => ⟨f, h.1⟩
  have hread : ∀ k : Cont, (∀ v, (σ.resume s depth stack v k).Settled σ.unit refused) →
      σ.Round refused (evaluating s depth (k :: stack) f (.readLocal array)) := by
    intro k hk
    refine .next _ (.evaluating hs.keeps rfl) (step_read s hknows.level) fun _ => ?_
    refine .next _ ⟨hs.keeps, (fun _ _ h => nomatch h), ?_⟩ rfl fun _ => .now (hk _)
    rintro v k' rest ⟨⟩ _ _
    exact hgets
  cases hc with
  | index position =>
    refine hread (.index position) fun v => ?_
    cases v with
    | array id => exact Poised.giving hs hstack
    | _ => exact Poised.leaving hs hstack
  | slice start endOffset =>
    refine hread (.slice start endOffset) fun v => ?_
    cases v with
    | array id => exact Poised.givingNew hs hstack rfl
    | _ => exact Poised.leaving hs hstack
  | atLeast size =>
    refine hread (.atLeast size) fun v => ?_
    cases v with
    | array id => exact Poised.giving hs hstack
    | _ => exact Poised.leaving hs hstack

include hu

theorem round_write (harray : array.IsSpread)
    (hnew : ∀ l ∈ known f, l.name ≠ array.name) (hv : v = .nil ∨ v.IsArray)
    (hsound : Sound σ.unit (giving s depth (.writeLocal f array :: stack) v)) :
    σ.Round refused (giving s depth (.writeLocal f array :: stack) v) := by
  obtain ⟨hnamed, hslot⟩ := hsound.resolved hu f array f rfl (s.frameOf_self f harray.1)
  have hgrows := Store.grows_setSlot (s := s) f array.slot v
  have hwritten := hs.setSlot hnamed hslot (fun _ => hv) fun l hl hname =>
    absurd hname (hnew l hl)
  refine .next _ (.giving hs.keeps rfl) (step_write harray.1 hslot) fun _ => .now ?_
  exact Poised.giving hwritten (hstack.grow fun _ _ hasks => hasks.grow hgrows)

theorem round_learn (harray : array.IsUnpacked) (hrest : ∀ c ∈ rest, c.IsCareful (array :: known f))
    (hv : v.IsArray ∨ v = .nil ∧ refused f ∧ s.GotObject f) (hsound : Sound σ.unit
      (giving s depth (.writeLocal f array :: following f rest stack) v)) :
    σ.Round refused
      (giving s depth (.writeLocal f array :: following f rest stack) v) := by
  obtain ⟨hnamed, hslot⟩ := hsound.resolved hu f array f rfl (s.frameOf_self f harray.1)
  have hgrows := Store.grows_setSlot (s := s) f array.slot v
  have hwritten : (s.setSlot f array.slot v).Bears σ.unit refused known := by
    refine hs.setSlot hnamed hslot (fun _ => hv.symm.imp (·.1) id) fun l hl hname => ?_
    refine hv.imp id fun hnone => ⟨?_, hnone.2⟩
    cases hs.knows f l hl with
    | spread hspread _ _ =>
      obtain ⟨_, i, hi⟩ := hspread
      exact absurd (hname.symm.trans hi) (harray.name_ne i)
    | unpacked hunpacked _ _ => exact hunpacked
  have hknows : (s.setSlot f array.slot v).Knows σ.unit refused f array := by
    refine .unpacked harray (hnamed.grow hgrows) ?_
    rw [Store.slot_setSlot v hnamed.1 hslot, if_pos rfl]
    exact hv.imp id fun hnone => ⟨hnone.2.1, hnone.2.2.grow hgrows⟩
  have hbelow := (hstack.grow fun _ _ hasks => hasks.grow hgrows).mono (known.within_learn f array)
  refine .next _ (.giving hs.keeps rfl) (step_write harray.1 hslot) fun _ => .now ?_
  refine Poised.giving (hwritten.learn hknows) ?_
  cases rest with
  | nil => exact hbelow
  | cons c rest =>
    refine hbelow.push trivial ?_
    rintro g ⟨⟩ c' hc'
    rw [known.learn_self]
    exact hrest c' hc'

theorem round_test (harray : array.IsSpread) (hnothing : nothing.Careful limit (known f))
    (hitems : items.Careful limit (array :: known f)) :
    σ.Round refused (evaluating s depth (.branch f nothing items :: stack) f
      (.isNil (.readLocal array))) := by
  refine .next (evaluating s depth (.isNil :: .branch f nothing items :: stack) f
    (.readLocal array)) (.evaluating hs.keeps rfl) rfl fun hsound => ?_
  have hnamed := (hsound.holds_of_accesses (Or.inl rfl)).named hu hsound.lexical harray.1
  refine .next _ (.evaluating hs.keeps rfl) (step_read s harray.1) fun _ => ?_
  refine .next _ (.giving hs.keeps rfl) rfl fun _ => ?_
  refine .next _ (.giving hs.keeps rfl) rfl fun _ => .now ?_
  rcases hs.keeps f array.slot array.name hnamed harray.isArrayName with hnil | ⟨id, hid⟩
  · rw [hnil]
    exact Poised.evaluating hs hstack ⟨limit, hnothing⟩
  · rw [hid]
    have hknows : s.Knows σ.unit refused f array := .spread harray hnamed ⟨id, hid⟩
    refine Poised.evaluating (hs.learn hknows) (hstack.mono (known.within_learn f array)) ?_
    rw [known.learn_self]
    exact ⟨limit, hitems⟩

theorem round_fromItems (harray : array.IsUnpacked)
    (hrest : ∀ c ∈ rest, c.IsCareful (array :: known f))
    (hasks : ∀ o, (s.frame f).arguments.getD 0 .nil = .object o → s.Asks σ.unit f array) :
    σ.Round refused (evaluating s depth stack f (.ofItems (.unpack array :: rest))) := by
  have hunpack : σ.Round refused (evaluating s depth
      (.writeLocal f array :: following f rest stack) f
      (.splatCast (.argument 0 .isNil) .arrayWithNil)) := by
    refine .next _ (.evaluating hs.keeps rfl) rfl fun _ => ?_
    refine .next _ (.evaluating hs.keeps rfl) (step_argument s) fun _ => ?_
    refine .next (Setting.cast s depth (.writeLocal f array :: following f rest stack) f
      .arrayWithNil ((s.frame f).arguments.getD 0 .nil)) (.giving hs.keeps rfl) rfl
      (round_cast (fun items hsound => ?_) fun o ho => .now ?_)
    · exact round_learn hu (hs.same rfl) (hstack.grow fun _ _ h => h.grow (.of_frames_eq rfl))
        harray hrest (Or.inl ⟨_, rfl⟩) hsound
    · rw [ho]
      exact ⟨known, hs, .unpacking (.refl known) harray (hasks o ho) hrest hstack, nofun⟩
  cases rest with
  | nil => exact .next _ (.evaluating hs.keeps rfl) rfl fun _ => hunpack
  | cons second rest =>
    refine .next _ (.evaluating hs.keeps rfl) rfl fun _ => ?_
    exact .next _ (.evaluating hs.keeps rfl) rfl fun _ => hunpack

theorem round_eitherWay (harray : array.IsUnpacked) (hnamed : s.Named σ.unit f array.slot array.name)
    (hrest : ∀ c ∈ rest, c.IsCareful (array :: known f))
    (hpositional : positional.IsCareful (known f)) :
    σ.Round refused (evaluating s depth
      (.branch f (.ofItems (.unpack array :: rest)) positional :: stack) f .shouldDestructure) := by
  refine .next (shouldDestructure s depth _ f) (.evaluating hs.keeps rfl) rfl fun _ => ?_
  unfold shouldDestructure
  split
  · rename_i id honly
    refine .next _ (.giving hs.keeps rfl) rfl fun _ => round_fromItems hu hs hstack harray hrest ?_
    intro o ho
    rw [honly] at ho
    cases ho
  · rename_i v _ honly
    split
    · rename_i hasks
      have hgot : s.GotObject f := by
        cases v with
        | object o => exact ⟨hnamed.1, o, honly⟩
        | _ => cases hasks
      have hguard := Waits.guard (v := v) (.refl known) harray ⟨hnamed, hgot⟩ hrest hpositional hstack
      exact .now ⟨known, hs, hguard, nofun⟩
    · refine .next _ (.giving hs.keeps rfl) rfl fun _ => .now ?_
      exact Poised.evaluating hs hstack hpositional
  · refine .next _ (.giving hs.keeps rfl) rfl fun _ => .now ?_
    exact Poised.evaluating hs hstack hpositional

end

end Machine

theorem Cause.isCareful_of_isNeutral {limit : Nat} (hc : c.isNeutral = true)
    (hparts : ∀ part ∈ c.children, part.Careful limit (known f)) :
    (Cause.code f c).IsCareful known := by
  refine ⟨fun part k hfirst => ?_, fun part hpart => ⟨limit, hparts part hpart⟩⟩
  unfold Code.first? at hfirst
  split at hfirst <;> cases hfirst <;> first | exact trivial | cases hc

/-- An object that a block got has no array, now that it is asked for one. -/
def Machine.Refuses (m : Machine) (f : FrameId) : Prop :=
  m.control = .give .nil ∧ ∃ o array rest, array.IsUnpacked ∧
    m.stack = .castAnswer (.object o) :: .writeLocal f array :: rest

namespace Machine

variable {m : Machine} (hu : σ.unit.WellScoped)
  (hbodies : ∀ b body, σ.unit.body? b = some body → body.code.IsCareful [])

include hu hbodies

theorem round_eval (hs : s.Bears σ.unit refused known)
    (hstack : Waits (s.Asks σ.unit) known stack) (hc : c.IsCareful (known f))
    (hsound : Sound σ.unit ⟨s, depth, stack, .eval f c⟩) :
    σ.Round refused (σ.eval s depth stack f c) := by
  have hmoves : (Cause.code f c).IsCareful known → σ.Round refused (σ.eval s depth stack f c) := by
    intro hcause
    have hmove : Moves σ.unit (.code f c) s stack (σ.eval s depth stack f c) :=
      Moves.eval hsound.lexical fun b hb => hsound.isOpened_of_code hu hb
    exact .now (Poised.moves hs hstack hmove hbodies hcause nofun)
  obtain ⟨limit, hc⟩ := hc
  cases hc with
  | node hneutral hparts => exact hmoves (Cause.isCareful_of_isNeutral hneutral hparts)
  | read l =>
    refine hmoves ⟨fun part k hfirst => ?_, List.forall_mem_nil _⟩
    cases hfirst
  | @write _ value l hplain hvalue =>
    refine hmoves ⟨fun part k hfirst => ?_, List.forall_mem_singleton.mpr ⟨limit, hvalue⟩⟩
    cases hfirst
    exact hplain
  | take harray htakes => exact round_take hs hstack harray htakes
  | coerce onNil hlevel hname hi hnew hvalue =>
    refine .next _ (.evaluating hs.keeps rfl) rfl fun _ => .now ?_
    exact Poised.evaluating hs (.cast (.refl known) ⟨hlevel, _, hname⟩ hnew hstack) ⟨limit, hvalue⟩
  | test harray hnothing hitems => exact round_test hu hs hstack harray hnothing hitems
  | @eitherWay fromItems _ positional array harray hitems hpositional =>
    have hrest := Code.Careful.of_ofItems (.join hitems)
    have hjoin : Code.join (.unpack array :: fromItems) =
        .ofItems (.unpack array :: Code.elideResults (fromItems.flatMap Code.items)) :=
      Code.join_writeLocal array _ fromItems
    rw [hjoin] at hsound ⊢
    cases hsound with
    | steady hready hholds =>
      have hfirst := Holds.part hholds (List.mem_cons_of_mem _ List.mem_cons_self)
      rw [Code.mentions_ofItems] at hfirst
      have hnamed := (Holds.mem hfirst List.mem_cons_self).own.named hu hready.lexical harray.1
      exact round_eitherWay hu hs hstack harray hnamed (fun c hc => ⟨limit, hrest c hc⟩)
        ⟨limit, .join hpositional⟩

theorem round_give {v : Value} (hs : s.Bears σ.unit refused known)
    (hstack : Waits (s.Asks σ.unit) known (k :: stack))
    (hrefused : ∀ f, Refuses ⟨s, depth, k :: stack, .give v⟩ f → refused f)
    (hsound : Sound σ.unit ⟨s, depth, k :: stack, .give v⟩)
    (hnext : Sound σ.unit (σ.resume s depth stack v k)) :
    σ.Round refused (σ.resume s depth stack v k) := by
  cases hstack with
  | simple hwithin hk hcodes hstack =>
    have hmove : Moves σ.unit (.value k) s stack (σ.resume s depth stack v k) :=
      Moves.resume hsound.lexical fun b hb => hsound.isOpened_of_value hu hb
    exact .now (Poised.moves (hs.within hwithin) hstack hmove hbodies ⟨hk, hcodes⟩
      (hsound.resolved hu))
  | closure hwithin _ _ hstack => exact .now (Poised.giving (hs.within hwithin) hstack)
  | @cast known' stack _ onNil array f hwithin harray hnew hstack =>
    have hs := hs.within hwithin
    refine round_cast (fun items hsound => ?_) (fun o ho => .now ?_) hnext
    · exact round_write hu (hs.same rfl) (hstack.grow fun _ _ h => h.grow (.of_frames_eq rfl))
        harray hnew (Or.inr ⟨_, rfl⟩) hsound
    · exact ⟨known', hs, .answer (.refl known') harray hnew hstack, nofun⟩
  | @answer known' stack _ asked array f hwithin harray hnew hstack =>
    have hs := hs.within hwithin
    cases v with
    | nil => exact round_write hu hs hstack harray hnew (Or.inl rfl) hnext
    | array id => exact round_write hu hs hstack harray hnew (Or.inr ⟨id, rfl⟩) hnext
    | _ => exact round_pass hs.keeps rfl rfl (.now (Poised.leaving hs hstack))
  | @guard array rest known' stack _ _ positional f hwithin harray hasks hrest hpositional hstack =>
    have hs := hs.within hwithin
    cases v with
    | nil =>
      refine .next _ (.giving hs.keeps rfl) rfl fun _ => .now ?_
      exact Poised.evaluating hs hstack hpositional
    | array id =>
      refine .next _ (.giving hs.keeps rfl) rfl fun _ => ?_
      exact round_fromItems hu hs hstack harray hrest fun _ _ => hasks
    | _ => exact round_pass hs.keeps rfl rfl (.now (Poised.leaving hs hstack))
  | @unpacking array rest known' stack _ o f hwithin harray hasks hrest hstack =>
    have hs := hs.within hwithin
    cases v with
    | nil =>
      have hnone := hrefused f ⟨rfl, o, array, _, harray, rfl⟩
      exact round_learn hu hs hstack harray hrest (Or.inr ⟨rfl, hnone, hasks.2⟩) hnext
    | array id => exact round_learn hu hs hstack harray hrest (Or.inl ⟨id, rfl⟩) hnext
    | _ =>
      refine round_pass hs.keeps rfl rfl ?_
      cases rest with
      | nil => exact .now (Poised.leaving hs hstack)
      | cons => exact round_pass hs.keeps rfl rfl (.now (Poised.leaving hs hstack))

omit hu hbodies in
theorem round_leave (hs : s.Bears σ.unit refused known)
    (hstack : Waits (s.Asks σ.unit) known (k :: stack)) :
    σ.Round refused (unwind s depth stack e k) := by
  have hmeets := Exit.Meets.unwind e k s depth stack
  cases hstack with
  | simple hwithin hk hcodes hstack =>
    exact .now (Poised.meets (hs.within hwithin) hstack hmeets hk hcodes)
  | @closure known' stack _ body f hwithin hf hbody hstack =>
    have hs := hs.within hwithin
    generalize unwind s depth stack e (.closure f body) = next at hmeets ⊢
    refine .now ?_
    cases hmeets with
    | pass => exact Poised.leaving hs hstack
    | stop => exact Poised.giving hs hstack
    | test heq | turn heq => cases heq
    | restart heq =>
      cases heq
      refine Poised.evaluating hs (.closure (.refl known') hf hbody hstack) ?_
      rw [hf]
      exact hbody
  | cast hwithin _ _ hstack | answer hwithin _ _ hstack | guard hwithin _ _ _ _ hstack =>
    have hs := hs.within hwithin
    exact round_pass hs.keeps rfl rfl (.now (Poised.leaving hs hstack))
  | @unpacking _ rest _ _ _ _ _ hwithin _ _ _ hstack =>
    have hs := hs.within hwithin
    refine round_pass hs.keeps rfl rfl ?_
    cases rest with
    | nil => exact .now (Poised.leaving hs hstack)
    | cons => exact round_pass hs.keeps rfl rfl (.now (Poised.leaving hs hstack))

/-- **From one settled machine to the next.** -/
theorem Settled.round (h : m.Settled σ.unit refused) (hrefused : ∀ f, m.Refuses f → refused f)
    (hsound : Sound σ.unit m) :
    m.Guarded σ.unit refused ∧
      ∀ m', Sound σ.unit m' → σ.step m = .next m' → σ.Round refused m' := by
  obtain ⟨known, hpoised⟩ := h
  refine ⟨hpoised.guarded, fun m' hnext hstep => ?_⟩
  obtain ⟨hs, hstack, hcontrol⟩ := hpoised
  obtain ⟨s, depth, stack, control⟩ := m
  cases control with
  | eval f c =>
    cases Step.next.inj hstep
    exact round_eval hu hbodies hs hstack (hcontrol f c rfl) hsound
  | call f receiver method args block =>
    cases Step.next.inj hstep
    have hmove : Moves σ.unit .call s stack (σ.call s depth stack f receiver method args block) :=
      Moves.call rfl hsound.lexical
    exact .now (Poised.moves hs hstack hmove hbodies trivial nofun)
  | give v =>
    cases stack with
    | nil => cases hstep
    | cons k stack =>
      cases Step.next.inj hstep
      exact round_give hu hbodies hs hstack hrefused hsound hnext
  | leave e =>
    cases stack with
    | nil => cases hstep
    | cons k stack =>
      cases Step.next.inj hstep
      exact round_leave hs hstack
  | halt c => cases hstep

end Machine

end Rounds

/-! ## Runs -/

/-- In the run an object that the frame got had no array any more. -/
def Setting.Refused (σ : Setting) (session : Session) (f : FrameId) : Prop :=
  ∃ m, σ.Reaches (σ.start session) m ∧ m.Refuses f

theorem Machine.Settled.start {σ : Setting} {session : Session} (hu : σ.unit.WellScoped)
    (hbodies : ∀ b body, σ.unit.body? b = some body → body.code.IsCareful [])
    (hkeeps : session.store.KeepsArrays σ.unit) : (σ.start session).Settled σ.unit refused := by
  obtain ⟨body, hb, _⟩ := hu.main
  have hs : session.store.Bears σ.unit refused fun _ => [] := ⟨hkeeps, by simp⟩
  unfold Setting.start
  rw [hb]
  exact Poised.evaluating (hs.newFrame rfl) .nil (hbodies _ body hb)

section Runs

variable {σ : Setting} {session : Session} {m m' : Machine} (hu : σ.unit.WellScoped)
  (hbodies : ∀ b body, σ.unit.body? b = some body → body.code.IsCareful [])
  (hs : session.store.Lexical σ.unit) (hkeeps : session.store.KeepsArrays σ.unit)

include hu hbodies hs hkeeps

theorem Setting.guarded (h : σ.Reaches (σ.start session) m) :
    m.Guarded σ.unit (σ.Refused session) := by
  have hstart : (σ.start session).Settled σ.unit (σ.Refused session) := .start hu hbodies hkeeps
  refine Until.reaches hu (fun m' hreaches hsettled hsound => ?_) hstart (Sound.start hu hs) h
  exact hsettled.round hu hbodies (fun f hrefuses => ⟨m', hreaches, hrefuses⟩) hsound

/-- The fault of a value that is no array is that of an object that had none any more. -/
theorem Setting.refused_of_raise (hfault : fault.isNotArray = true)
    (h : σ.Reaches (σ.start session) m) (hm : m.control = .leave (.raise fault)) :
    ∃ f, σ.Refused session f := by
  revert hm
  refine Reaches.induct (P := fun m => m.control = .leave (.raise fault) → ∃ f, σ.Refused session f)
    ?_ ?_ h
  · intro hstart
    obtain ⟨body, hb, _⟩ := hu.main
    unfold start at hstart
    rw [hb] at hstart
    cases hstart
  · intro m m' hreaches ih hstep hm'
    have hsound : Sound σ.unit m := by
      obtain ⟨n, hn⟩ := hreaches
      exact Sound.after hu (Sound.start hu hs) hn
    have hguarded := guarded hu hbodies hs hkeeps hreaches
    cases advances_of_step hu hsound hstep with
    | code hmoves | call hmoves =>
      have hraises := hmoves.raises hm'
      simp [Cause.raises, hfault] at hraises
    | @value k s stack _ depth v hmoves =>
      have hraises := hmoves.raises hm'
      have htakes : k.takes = true := by simpa [Cause.raises, hfault] using (Bool.and_eq_true_iff.mp hraises).2
      rcases hguarded.gets v k stack rfl rfl htakes with ⟨id, rfl⟩ | hrefused
      · cases Step.next.inj hstep
        cases k with
        | index | slice | atLeast => cases hm'
        | _ => cases htakes
      · exact hrefused
    | exit hmeets =>
      cases hmeets with
      | pass =>
        cases hm'
        exact ih rfl
      | _ => cases hm'

end Runs

theorem CodeUnit.keepsArrays_of_play (hu : u.WellScoped)
    (hbodies : ∀ b body, u.body? b = some body → body.code.IsCareful []) {capture : Capture}
    {turns : List Turn} {session left : Session} {events : List Event}
    (hs : session.store.Lexical u) (hkeeps : session.store.KeepsArrays u)
    (hplay : u.play capture session turns = some (events, left)) :
    left.store.KeepsArrays u := by
  induction turns generalizing session events with
  | nil =>
    cases hplay
    exact hkeeps
  | cons t rest ih =>
    obtain ⟨⟨event, next⟩, hturn, hplay⟩ := Option.bind_eq_some_iff.mp hplay
    obtain ⟨⟨events, last⟩, hrest, hplay⟩ := Option.bind_eq_some_iff.mp hplay
    cases hplay
    refine ih (hu.turn hs hturn) ?_ hrest
    cases t with
    | run maxDepth steps =>
      obtain ⟨⟨outcome, after⟩, hrun, heq⟩ := Option.map_eq_some_iff.mp hturn
      cases heq
      obtain ⟨n, m, hm, hdone⟩ := exists_of_runFor hrun
      rw [session_of_done hdone]
      exact (guarded hu hbodies hs hkeeps ⟨n, hm⟩).keeps
    | takeOutput =>
      cases hturn
      exact hkeeps

theorem Code.TakesFrom.gives {σ : Setting} {array : Local} (h : c.TakesFrom array)
    (hlevel : array.level = 0) (harray : (s.slot f array.slot).IsArray) :
    ∃ t v, σ.Gives f c s t v := by
  obtain ⟨id, hid⟩ := harray
  have hread : ∀ depth stack, σ.step (evaluating s depth stack f (.readLocal array)) =
      .next (giving s depth stack (.array id)) := by
    intro depth stack
    rw [step_read s hlevel, hid]
  cases h with
  | index position | atLeast size =>
    exact ⟨s, _, fun depth stack => .head rfl (.head (hread depth _) (.single rfl))⟩
  | slice start endOffset =>
    exact ⟨_, _, fun depth stack => .head rfl (.head (hread depth _) (.single rfl))⟩

/-- **Items are taken from arrays.** In every run of a lowered program, however the session went
before: code that takes something from an array takes it from a variable that holds one, and gives a
value; unless the variable is that of a block that got one object, and the object had no array when
it was asked for it. The fault of a value that is no array is raised only in a run in which an object
had none, and only such a run ends with it. -/
theorem Program.lower_takes {p : Program} {options : LowerOptions} {σ : Setting} (hp : p.Plain)
    (h : p.lower options = .ok σ.unit) {turns : List Turn} {events : List Event}
    {session : Session} (hplay : σ.unit.play σ.capture {} turns = some (events, session)) :
    (∀ m f c, σ.Reaches (σ.start session) m → m.control = .eval f c → c.takes = true →
      ∃ array, c.TakesFrom array ∧
        ((m.store.slot f array.slot).IsArray ∧ (∃ t v, σ.Gives f c m.store t v) ∨
          array.IsUnpacked ∧ m.store.slot f array.slot = .nil ∧
            (∃ o, (m.store.frame f).arguments = [.object o]) ∧ σ.Refused session f)) ∧
    (∀ m given, σ.Reaches (σ.start session) m → m.control = .leave (.raise (.notArray given)) →
      ∃ f, σ.Refused session f) ∧
    ∀ n given left, σ.runFor n (σ.start session) = some (.fault (.notArray given), left) →
      ∃ f, σ.Refused session f := by
  have hu := lower_wellScoped h
  have hbodies : ∀ b body, σ.unit.body? b = some body → body.code.IsCareful [] :=
    fun b body hb => careful_of_lower hp h hb
  have hinitial := Store.lexical_initial hu
  have hs := hu.play hinitial hplay
  have hkeeps : session.store.KeepsArrays σ.unit := by
    refine CodeUnit.keepsArrays_of_play hu hbodies hinitial (fun g slot name hnamed _ => ?_) hplay
    exact absurd hnamed.1 (Nat.not_lt_zero g)
  refine ⟨fun m f c hreaches hcontrol htakes => ?_, fun m given hreaches hraise => ?_,
    fun n given left hrun => ?_⟩
  · have hguarded := guarded hu hbodies hs hkeeps hreaches
    obtain ⟨array, hfrom, hknows⟩ := hguarded.takes f c hcontrol htakes
    refine ⟨array, hfrom, ?_⟩
    rcases hguarded.keeps f array.slot array.name hknows.named hknows.isArrayName with hnil | harray
    · right
      cases hknows with
      | spread _ _ hholds =>
        obtain ⟨id, hid⟩ := hholds
        cases hnil.symm.trans hid
      | unpacked hunpacked _ hholds =>
        rcases hholds with ⟨id, hid⟩ | ⟨hrefused, _, hobject⟩
        · cases hnil.symm.trans hid
        · exact ⟨hunpacked, hnil, hobject, hrefused⟩
    · exact Or.inl ⟨harray, hfrom.gives hknows.level harray⟩
  · exact refused_of_raise hu hbodies hs hkeeps rfl hreaches hraise
  · obtain ⟨k, m, hm, hdone⟩ := exists_of_runFor hrun
    exact refused_of_raise hu hbodies hs hkeeps rfl ⟨k, hm⟩
      (control_of_done hdone rfl)

/-- A class of objects that have an array, which a block with two parameters gets one of. -/
def Program.yieldsObject (toAry : List (Located Expr)) : Program where
  body := [
    Build.classDef "Pair" none [Build.define "to_ary" Params.empty toAry],
    Build.define "m" Params.empty [Build.yield [Build.call (Build.constant "Pair") "new" []]],
    Build.callWithBlock none "m" [] (Build.block ((Params.empty.require "a").require "b")
      [Build.symbol "done"])]

/-- The objects always have an array. -/
def Program.pair : Program :=
  yieldsObject [Build.array [Build.integer 1, Build.integer 2]]

/-- The objects have an array once. -/
def Program.fickle : Program :=
  yieldsObject [Build.ifElse (Build.globalVar "asked") [Build.nil]
    [Build.assignTo (.bare (.globalVar "asked")) (Build.bool true),
      Build.array [Build.integer 1, Build.integer 2]]]

def Setting.pair : Setting := .of Program.pair

def Setting.fickle : Setting := .of Program.fickle

/-- In the second run of `pair` the block takes its second parameter from the array that the object
has given. -/
theorem Setting.pair_takes : Program.pair.Plain ∧ Program.pair.lower {} = .ok pair.unit ∧
    ∃ events session m f c array, pair.unit.play pair.capture {} [.run 16 100, .takeOutput] =
        some (events, session) ∧
      pair.Reaches (pair.start session) m ∧ m.control = .eval f c ∧ c.takes = true ∧
      c.TakesFrom array ∧ (m.store.slot f array.slot).IsArray ∧
      ∃ t v, pair.Gives f c m.store t v := by
  have hplain : Program.pair.Plain := Program.plain_of_isPlainTo 8 (by decide +kernel)
  have hlower : Program.pair.lower {} = .ok pair.unit :=
    Program.lower_of_setting rfl (by decide +kernel)
  have hσ := Eq.refl pair
  conv at hσ => rhs; cbv
  have hplay := Eq.refl (pair.unit.play pair.capture {} [.run 16 100, .takeOutput])
  conv at hplay => rhs; rw [hσ]; cbv
  have hm := (fun e s (_ : _ = some (e, s)) => Eq.refl (pair.after 60 (pair.start s))) _ _ hplay
  conv at hm => rhs; rw [hσ]; cbv
  obtain ⟨array, hfrom, hholds⟩ :=
    (Program.lower_takes hplain hlower hplay).1 _ _ _ ⟨60, hm⟩ rfl rfl
  rcases hholds with ⟨harray, hgives⟩ | ⟨_, hnil, _⟩
  · exact ⟨hplain, hlower, _, _, _, _, _, array, hplay, ⟨60, hm⟩, rfl, rfl, hfrom, harray, hgives⟩
  · cases hfrom
    cases hnil

/-- The object of `fickle` has an array when it is asked whether it has one, and none when it is
asked for it. -/
theorem Setting.fickle_notArray : Program.fickle.Plain ∧
    Program.fickle.lower {} = .ok fickle.unit ∧
    ∃ left, fickle.runFor 100 (fickle.start {}) = some (.fault (.notArray "NilClass"), left) := by
  refine ⟨Program.plain_of_isPlainTo 8 (by decide +kernel), ?_, ?_⟩
  · exact Program.lower_of_setting rfl (by decide +kernel)
  · have hσ := Eq.refl fickle
    conv at hσ => rhs; cbv
    have hrun := Eq.refl (fickle.runFor 100 (fickle.start {}))
    conv at hrun => rhs; rw [hσ]; cbv
    exact ⟨_, hrun⟩

end BlockLang
