import BlockLang.Code.Unit
import BlockLang.Proofs.Code.Mentions

/-!
# Where bodies stand

A unit is a flat list of bodies, and yet blocks and lambdas stand inside one another: a closure is
created by a node of some body's code, and the body that holds the node is its lexical parent
(`CodeUnit.parent?`). This file says it of the unit alone, without a look at how it was lowered.

**A variable is the slot of a body further out.** A reference of level `n` means a slot of the
`n`-th body outward (`CodeUnit.ancestor?`), and the machine finds that body's frame by following
`n` links between frames, which a frame only has if its body says so (`Body.captured`).
`CodeUnit.WellScoped` collects what has to hold of the code for this to work; a lowered program has
it (`Program.lower_wellScoped`), and the machine needs nothing else of it.
-/

namespace BlockLang

open List

namespace Code

variable {c : Code} {l : Local}

/-- The code reads or writes the variable somewhere. -/
def Refers (c : Code) (l : Local) : Prop :=
  .readLocal l ∈ c.preorder ∨ ∃ value, .writeLocal l value ∈ c.preorder

/-- The code creates closures of the body. -/
def creates (c : Code) (id : BodyId) : Bool :=
  c.preorder.any fun
    | .closure body _ => body == id
    | _ => false

theorem refers_iff : c.Refers l ↔ .variable l ∈ c.mentions := by
  rw [mem_mentions]
  constructor
  · rintro (h | ⟨value, h⟩)
    · exact ⟨_, h, mem_singleton_self _⟩
    · exact ⟨_, h, mem_singleton_self _⟩
  · rintro ⟨part, hpart, h⟩
    cases part with
    | readLocal source =>
      cases mem_singleton.mp h
      exact Or.inl hpart
    | writeLocal target value =>
      cases mem_singleton.mp h
      exact Or.inr ⟨value, hpart⟩
    | argument i missing => cases missing <;> simp [ownMentions] at h
    | _ => simp [ownMentions] at h

theorem creates_iff {id : BodyId} :
    c.creates id = true ↔ ∃ kind, kind.isClosure = true ∧ .body kind id ∈ c.mentions := by
  unfold creates
  rw [any_eq_true]
  constructor
  · rintro ⟨part, hpart, h⟩
    cases part with
    | closure body lambda =>
      have hid := beq_iff_eq.mp h
      refine ⟨if lambda then .lambda else .block, by cases lambda <;> rfl, mem_mentions.mpr ?_⟩
      exact ⟨_, hpart, by simp [ownMentions, hid]⟩
    | _ => simp at h
  · rintro ⟨kind, hkind, h⟩
    obtain ⟨part, hpart, h⟩ := mem_mentions.mp h
    refine ⟨part, hpart, ?_⟩
    cases part with
    | closure body lambda =>
      have heq := mem_singleton.mp h
      simp only [Mention.body.injEq] at heq
      simp [heq.2]
    | define name body =>
      cases mem_singleton.mp h
      exact absurd hkind (by decide)
    | openClass name superclass isModule body =>
      have heq := mem_singleton.mp h
      simp only [Mention.body.injEq] at heq
      rw [heq.1] at hkind
      cases isModule <;> exact absurd hkind (by decide)
    | argument i missing => cases missing <;> simp [ownMentions] at h
    | _ => simp [ownMentions] at h

/-- Some part of the code accesses the variable itself, to write it or to read it. -/
def accesses (c : Code) (write : Bool) (l : Local) : Bool :=
  c.preorder.any fun
    | .writeLocal l' _ => write && l' == l
    | .readLocal l' => !write && l' == l
    | _ => false

theorem writes_of_accesses (h : c.accesses true l = true) :
    ∃ value, .writeLocal l value ∈ c.preorder := by
  obtain ⟨part, hpart, h⟩ := any_eq_true.mp h
  split at h
  · rename_i l' value
    obtain rfl := eq_of_beq h
    exact ⟨value, hpart⟩
  · simp at h
  · simp at h

theorem reads_of_accesses (h : c.accesses false l = true) : .readLocal l ∈ c.preorder := by
  obtain ⟨part, hpart, h⟩ := any_eq_true.mp h
  split at h
  · simp at h
  · obtain rfl := eq_of_beq h
    exact hpart
  · simp at h

end Code

namespace CodeUnit

variable {u : CodeUnit}

/-- The body whose code creates closures of the body `id`. -/
def parent? (u : CodeUnit) (id : BodyId) : Option BodyId :=
  (List.range u.bodies.size).find? fun p => (u.body? p).any (·.code.creates id)

theorem creates_of_parent? {id : BodyId} (h : u.parent? id = some p) :
    (u.body? p).any (·.code.creates id) = true := by
  have hfound := List.find?_some h
  exact hfound

/-- The `n`-th body outward from the body `id`. -/
def ancestor? (u : CodeUnit) : Nat → BodyId → Option BodyId
  | 0, id => some id
  | n + 1, id => (u.parent? id).bind (u.ancestor? n)

theorem ancestor?_succ {id : BodyId} (n : Nat) (h : u.parent? id = some p) :
    u.ancestor? (n + 1) id = u.ancestor? n p := by
  rw [ancestor?, h]
  rfl

theorem ancestor?_add (m n : Nat) (id : BodyId) :
    u.ancestor? (m + n) id = (u.ancestor? m id).bind (u.ancestor? n) := by
  induction m generalizing id with
  | zero => simp [ancestor?]
  | succ m ih =>
    rw [Nat.succ_add, ancestor?, ancestor?, Option.bind_assoc]
    cases u.parent? id with
    | none => rfl
    | some p => exact ih p

/-- The body stands in a method, or is one. -/
def UnderMethod (u : CodeUnit) (id : BodyId) : Prop :=
  ∃ n a body, u.ancestor? n id = some a ∧ u.body? a = some body ∧ body.kind = .method

/-- Something below mentions a variable further out than `d`: the code itself, or that of a closure
it creates. -/
inductive Walks (u : CodeUnit) : Nat → List Mention → Prop
  | here {d : Nat} {ms : List Mention} {l : Local} : .variable l ∈ ms → d < l.level → Walks u d ms
  | inside {d : Nat} {ms : List Mention} {kind : BodyKind} {id : BodyId} {body : Body} :
      .body kind id ∈ ms → kind.isClosure = true → u.body? id = some body →
        Walks u (d + 1) body.code.mentions → Walks u d ms

/-- What holds of the bodies that lowering leaves. -/
structure WellScoped (u : CodeUnit) : Prop where
  first : u.main = 0
  main : ∃ body, u.body? u.main = some body ∧ body.kind = .topLevel
  id : ∀ {b body}, u.body? b = some body → body.id = b
  /-- The bodies that code names are there, of the kind that they are used as. -/
  body : ∀ {p outer kind b}, u.body? p = some outer → .body kind b ∈ outer.code.mentions →
    ∃ body, u.body? b = some body ∧ body.kind = kind
  /-- The code that creates a closure is that of its parent. -/
  parent : ∀ {p outer kind b}, u.body? p = some outer → .body kind b ∈ outer.code.mentions →
    kind.isClosure = true → u.parent? b = some p
  /-- Only closures stand inside of other bodies. -/
  root : ∀ {b body p}, u.body? b = some body → u.parent? b = some p → body.kind.isClosure = true
  /-- A reference names a slot of the body at its level. -/
  slot : ∀ {b body l}, u.body? b = some body → .variable l ∈ body.code.mentions →
    ∃ a owner, u.ancestor? l.level b = some a ∧ u.body? a = some owner ∧
      owner.slots[l.slot]? = some l.name
  /-- The bodies on the way to it keep the frame that they were created in. -/
  link : ∀ {b body l}, u.body? b = some body → .variable l ∈ body.code.mentions →
    ∀ d < l.level, ∃ a between, u.ancestor? d b = some a ∧ u.body? a = some between ∧
      between.captured = true
  super : ∀ {b body}, u.body? b = some body → .super ∈ body.code.mentions → u.UnderMethod b
  guarded : ∀ {b body}, u.body? b = some body → body.code.Guarded
  /-- No body keeps a frame in vain. -/
  needed : ∀ {b body}, u.body? b = some body → body.captured = true →
    u.Walks 0 body.code.mentions

namespace WellScoped

variable {body : Body} {b : BodyId}

theorem parent?_eq_some_iff (hu : u.WellScoped) :
    u.parent? b = some p ↔ ∃ outer, u.body? p = some outer ∧ outer.code.creates b = true := by
  constructor
  · intro h
    have hc := creates_of_parent? h
    cases hp : u.body? p with
    | none => simp [hp] at hc
    | some outer => exact ⟨outer, rfl, by simpa [hp] using hc⟩
  · rintro ⟨outer, houter, hc⟩
    obtain ⟨kind, hkind, hm⟩ := Code.creates_iff.mp hc
    exact hu.parent houter hm hkind

theorem ancestor?_root (hu : u.WellScoped) (hb : u.body? b = some body)
    (hkind : body.kind.isClosure = false) (n : Nat) : u.ancestor? (n + 1) b = none := by
  cases hp : u.parent? b with
  | none => rw [ancestor?, hp]; rfl
  | some p =>
    rw [hu.root hb hp] at hkind
    exact absurd hkind (by simp)

theorem exists_refers_of_walks (hu : u.WellScoped) {d : Nat} {ms : List Mention}
    (h : u.Walks d ms) : ∀ {e : BodyId} {inner : Body}, u.ancestor? d e = some b →
      u.body? e = some inner → ms = inner.code.mentions →
        ∃ d e inner l, u.ancestor? d e = some b ∧ u.body? e = some inner ∧
          inner.code.Refers l ∧ d < l.level := by
  induction h with
  | here hl hlt =>
    rintro e inner hanc hinner rfl
    exact ⟨_, e, inner, _, hanc, hinner, Code.refers_iff.mpr hl, hlt⟩
  | inside hm hkind hbody _ ih =>
    rintro e inner hanc hinner rfl
    have hparent := hu.parent hinner hm hkind
    exact ih (by rw [ancestor?_succ _ hparent]; exact hanc) hbody rfl

theorem captured_eq_false (hu : u.WellScoped) (hb : u.body? b = some body)
    (hkind : body.kind.isClosure = false) : body.captured = false := by
  cases hc : body.captured with
  | false => rfl
  | true =>
    obtain ⟨d, e, inner, l, hanc, hinner, hl, hlt⟩ :=
      hu.exists_refers_of_walks (hu.needed hb hc) rfl hb rfl
    obtain ⟨a, _, ha, _⟩ := hu.slot hinner (Code.refers_iff.mp hl)
    -- the reference goes on outward from `b`, where there is nothing
    obtain ⟨n, hn⟩ := Nat.exists_eq_add_of_lt hlt
    rw [hn, Nat.add_assoc, ancestor?_add, hanc, Option.bind_some, hu.ancestor?_root hb hkind] at ha
    simp at ha

theorem kind_of_underMethod (hu : u.WellScoped) (hb : u.body? b = some body)
    (hkind : body.kind.isClosure = false) (h : u.UnderMethod b) :
    body.kind = .method := by
  obtain ⟨n, a, owner, hanc, howner, hmethod⟩ := h
  cases n with
  | zero =>
    cases hanc
    rw [hb, Option.some.injEq] at howner
    exact howner ▸ hmethod
  | succ n =>
    rw [hu.ancestor?_root hb hkind] at hanc
    simp at hanc

theorem underMethod_of_parent? (hb : u.body? b = some body) (hkind : body.kind.isClosure = true)
    (hp : u.parent? b = some p) (h : u.UnderMethod b) : u.UnderMethod p := by
  obtain ⟨n, a, owner, hanc, howner, hmethod⟩ := h
  cases n with
  | zero =>
    cases hanc
    rw [hb, Option.some.injEq] at howner
    rw [howner, hmethod] at hkind
    exact absurd hkind (by decide)
  | succ n =>
    rw [ancestor?_succ n hp] at hanc
    exact ⟨n, a, owner, hanc, howner, hmethod⟩

end WellScoped

end CodeUnit

end BlockLang
