import BlockLang.Proofs.Code.Parts

/-!
# What code mentions

Most of what has to hold of lowered code is about a few leaves of it: the variables it refers to,
the bodies it names, the arguments it reads without a default, the calls of the method further up.
`Code.mentions` collects them, and `Made` says how they got into a piece of code: what lowering
obtained (`ms`) stays, what it was handed (`vs`) may be used, and nothing else is mentioned.

**What stays is not all of it.** `Code.join` leaves out results that nobody reads, so a piece of
code may lose the reads in a result of `Code.elidable`. `Code.lasting` is what is mentioned outside
of such results, which joining keeps to the last item (`Code.lasting_join`); and the mentions that
matter for what a scope has to keep, those with `Mention.isKept`, are never made inside one. A
variable of the scope itself is not kept: a hidden variable may well disappear with the only result
that read it.
-/

namespace BlockLang

open List Code

/-- What a piece of code can mention of the things around it. -/
inductive Mention where
  /-- A variable that is read or written. -/
  | variable (l : Local)
  /-- A body of the kind, which becomes a closure, a method, a class or a module. -/
  | body (kind : BodyKind) (id : BodyId)
  /-- An argument that has to be there. -/
  | argument (index : Nat)
  /-- A call of the method further up. -/
  | super
deriving DecidableEq, Repr

/-- Bodies, and variables of the scopes further out. -/
def Mention.isKept : Mention → Bool
  | .variable l => 0 < l.level
  | .body _ _ => true
  | .argument _ | .super => false

namespace Code

/-- What the node itself mentions. -/
def ownMentions : Code → List Mention
  | .readLocal source => [.variable source]
  | .writeLocal target _ => [.variable target]
  | .closure id lambda => [.body (if lambda then .lambda else .block) id]
  | .define _ id => [.body .method id]
  | .openClass _ _ isModule id => [.body (if isModule then .moduleBody else .classBody) id]
  | .argument i .isError => [.argument i]
  | .super _ _ _ => [.super]
  | _ => []

def mentions (c : Code) : List Mention := c.preorder.flatMap ownMentions

def isElidable : Code → Bool
  | .elidable _ _ => true
  | _ => false

/-- What is mentioned outside of results that can be left out. -/
def lasting (c : Code) : List Mention :=
  c.fold fun c parts => c.ownMentions ++ (if c.isElidable then parts.take 1 else parts).flatten

/-! ## By parts -/

theorem mentions_eq (c : Code) : c.mentions = c.ownMentions ++ c.children.flatMap mentions := by
  unfold mentions
  rw [preorder_eq, flatMap_cons, flatMap_assoc]

variable {c : Code} {x : Mention}

theorem lasting_eq (h : c.isElidable = false) :
    c.lasting = c.ownMentions ++ c.children.flatMap lasting := by
  unfold lasting
  rw [fold_eq, h, flatMap_def]
  rfl

@[simp] theorem lasting_elidable (body result : Code) :
    (elidable body result).lasting = body.lasting := by
  show _ ++ (List.take 1 [body.lasting, result.lasting]).flatten = body.lasting
  simp [ownMentions]

theorem lasting_sequence (items : List Code) :
    (Code.sequence items).lasting = items.flatMap lasting := by
  rw [lasting_eq rfl]
  rfl

theorem mentions_sequence (items : List Code) :
    (Code.sequence items).mentions = items.flatMap mentions := by
  rw [mentions_eq]
  rfl

theorem mem_mentions_of_mem_lasting (h : x ∈ c.lasting) : x ∈ c.mentions := by
  induction c using inductionOnChildren with
  | h c ih =>
    rw [mentions_eq]
    cases he : c.isElidable with
    | false =>
      rw [lasting_eq he] at h
      rcases mem_append.mp h with h | h
      · exact mem_append_left _ h
      · obtain ⟨part, hpart, hx⟩ := mem_flatMap.mp h
        exact mem_append_right _ (mem_flatMap.mpr ⟨part, hpart, ih part hpart hx⟩)
    | true =>
      cases c with
      | elidable body result =>
        rw [lasting_elidable] at h
        have hbody : body ∈ (elidable body result).children := mem_cons_self
        exact mem_append_right _ (mem_flatMap.mpr ⟨body, hbody, ih body hbody h⟩)
      | _ => exact absurd he (by simp [isElidable])

theorem mem_mentions : x ∈ c.mentions ↔ ∃ part ∈ c.preorder, x ∈ part.ownMentions := by
  unfold mentions
  exact mem_flatMap

/-- Every read of an argument that has to be there comes after a check that it is. -/
def Guarded (c : Code) : Prop :=
  (∀ i, .argument i ∉ c.mentions) ∨
    ∃ arity rest, c = .sequence (.checkArity arity :: rest) ∧
      ∀ i, .argument i ∈ c.mentions → i < arity.pre

/-! ## Joined code -/

theorem flatMap_lasting_items (c : Code) : c.items.flatMap lasting = c.lasting := by
  cases c with
  | sequence items => exact (lasting_sequence items).symm
  | _ => simp [items]

theorem flatMap_mentions_items (c : Code) : c.items.flatMap mentions = c.mentions := by
  cases c with
  | sequence items => exact (mentions_sequence items).symm
  | _ => simp [items]

theorem flatMap_lasting_effectItems (c : Code) : c.effectItems.flatMap lasting = c.lasting := by
  cases c with
  | elidable body result => rw [effectItems, flatMap_lasting_items, lasting_elidable]
  | _ => simp [effectItems]

theorem mem_mentions_of_effectItems (h : x ∈ c.effectItems.flatMap mentions) : x ∈ c.mentions := by
  cases c with
  | elidable body result =>
    rw [effectItems, flatMap_mentions_items] at h
    rw [mentions_eq]
    simp [children, h]
  | _ => simpa [effectItems] using h

theorem elideResults_cons (c d : Code) (rest : List Code) :
    elideResults (c :: d :: rest) = c.effectItems ++ elideResults (d :: rest) := rfl

theorem flatMap_lasting_elideResults : ∀ codes : List Code,
    (elideResults codes).flatMap lasting = codes.flatMap lasting
  | [] => rfl
  | [_] => rfl
  | c :: d :: rest => by
    rw [elideResults_cons, flatMap_append, flatMap_lasting_effectItems,
      flatMap_lasting_elideResults (d :: rest), ← flatMap_cons]

theorem mem_mentions_of_elideResults : ∀ {codes : List Code},
    x ∈ (elideResults codes).flatMap mentions → x ∈ codes.flatMap mentions
  | [], h => h
  | [_], h => h
  | c :: d :: rest, h => by
    rw [elideResults_cons, flatMap_append, mem_append] at h
    rw [flatMap_cons, mem_append]
    exact h.imp mem_mentions_of_effectItems mem_mentions_of_elideResults

theorem lasting_ofItems (codes : List Code) : (ofItems codes).lasting = codes.flatMap lasting := by
  match codes with
  | [] => rfl
  | [c] => simp [ofItems]
  | c :: d :: rest => exact lasting_sequence (c :: d :: rest)

theorem mentions_ofItems (codes : List Code) :
    (ofItems codes).mentions = codes.flatMap mentions := by
  match codes with
  | [] => rfl
  | [c] => simp [ofItems]
  | c :: d :: rest => exact mentions_sequence (c :: d :: rest)

theorem lasting_join (pieces : List Code) : (join pieces).lasting = pieces.flatMap lasting := by
  rw [join, lasting_ofItems, flatMap_lasting_elideResults, flatMap_assoc]
  simp only [flatMap_lasting_items]

theorem mem_mentions_join (h : x ∈ (join pieces).mentions) : ∃ c ∈ pieces, x ∈ c.mentions := by
  rw [join, mentions_ofItems] at h
  have h := mem_mentions_of_elideResults h
  rw [flatMap_assoc] at h
  obtain ⟨c, hc, hx⟩ := mem_flatMap.mp h
  exact ⟨c, hc, by rwa [flatMap_mentions_items] at hx⟩

end Code

/-! ## How mentions get into code -/

/-- Code that was put together from what was handed over (`vs`) and what was obtained (`ms`): it
mentions nothing else, and all that is kept of `ms` lasts. -/
structure Made (vs ms : List Mention) (codes : List Code) : Prop where
  sound : ∀ c ∈ codes, ∀ x ∈ c.mentions, x ∈ vs ∨ x ∈ ms
  complete : ∀ x ∈ ms, x.isKept = true → ∃ c ∈ codes, x ∈ c.lasting

namespace Made

variable {vs ms ns : List Mention} {codes more : List Code} {c : Code}

theorem nil : Made vs [] [] := ⟨by simp, by simp⟩

theorem append (hm : Made vs ms codes) (hn : Made vs ns more) :
    Made vs (ms ++ ns) (codes ++ more) := by
  constructor
  · intro c hc x hx
    rcases mem_append.mp hc with hc | hc
    · exact (hm.sound c hc x hx).imp id (mem_append_left _)
    · exact (hn.sound c hc x hx).imp id (mem_append_right _)
  · intro x hx hk
    rcases mem_append.mp hx with hx | hx
    · obtain ⟨c, hc, hl⟩ := hm.complete x hx hk
      exact ⟨c, mem_append_left _ hc, hl⟩
    · obtain ⟨c, hc, hl⟩ := hn.complete x hx hk
      exact ⟨c, mem_append_right _ hc, hl⟩

theorem cons (hm : Made vs ms [c]) (hn : Made vs ns more) : Made vs (ms ++ ns) (c :: more) :=
  hm.append hn

/-- Only what is in the lists counts, and the borrowed may have been obtained as well. -/
theorem congr (h : Made vs ms codes) (hv : ∀ x ∈ vs, x ∈ vs' ∨ x ∈ ms') (hm : ∀ x ∈ ms, x ∈ ms')
    (hk : ∀ x ∈ ms', x.isKept = true → x ∈ ms) : Made vs' ms' codes := by
  constructor
  · intro c hc x hx
    rcases h.sound c hc x hx with hx | hx
    · exact hv x hx
    · exact Or.inr (hm x hx)
  · intro x hx hkept
    exact h.complete x (hk x hx hkept) hkept

/-- A node around parts. Its own mentions are obtained with it. -/
theorem node (he : c.isElidable = false) (h : Made vs ms c.children) :
    Made vs (c.ownMentions ++ ms) [c] := by
  constructor
  · intro d hd x hx
    rw [mem_singleton.mp hd, mentions_eq, mem_append] at hx
    rcases hx with hx | hx
    · exact Or.inr (mem_append_left _ hx)
    · obtain ⟨part, hpart, hx⟩ := mem_flatMap.mp hx
      exact (h.sound part hpart x hx).imp id (mem_append_right _)
  · intro x hx hk
    refine ⟨c, mem_singleton_self c, ?_⟩
    rw [lasting_eq he, mem_append]
    rcases mem_append.mp hx with hx | hx
    · exact Or.inl hx
    · obtain ⟨part, hpart, hl⟩ := h.complete x hx hk
      exact Or.inr (mem_flatMap.mpr ⟨part, hpart, hl⟩)

theorem wrap (he : c.isElidable = false) (h : Made vs ms c.children)
    (hown : ∀ x ∈ c.ownMentions, x ∈ vs ∨ x ∈ ms) : Made vs ms [c] := by
  have hn := h.node he
  constructor
  · intro d hd x hx
    rcases hn.sound d hd x hx with hx | hx
    · exact Or.inl hx
    · exact (mem_append.mp hx).elim (hown x) Or.inr
  · intro x hx hk
    exact hn.complete x (mem_append_right _ hx) hk

theorem plain (he : c.isElidable = false) (hown : c.ownMentions = [])
    (h : Made vs ms c.children) : Made vs ms [c] :=
  h.wrap he (by simp [hown])

theorem borrowed (h : ∀ c ∈ codes, ∀ x ∈ c.mentions, x ∈ vs) : Made vs [] codes :=
  ⟨fun c hc x hx => Or.inl (h c hc x hx), by simp⟩

theorem join (h : Made vs ms codes) : Made vs ms [join codes] := by
  constructor
  · intro d hd x hx
    obtain ⟨c, hc, hx⟩ := mem_mentions_join (mem_singleton.mp hd ▸ hx)
    exact h.sound c hc x hx
  · intro x hx hk
    obtain ⟨c, hc, hl⟩ := h.complete x hx hk
    refine ⟨_, mem_singleton_self _, ?_⟩
    rw [lasting_join]
    exact mem_flatMap.mpr ⟨c, hc, hl⟩

/-- A result that can be left out is no place to keep anything in. -/
theorem elidable (h : Made vs ms [body]) (hr : ∀ x ∈ result.mentions, x ∈ vs ∨ x ∈ ms) :
    Made vs ms [elidable body result] := by
  constructor
  · intro d hd x hx
    rw [mem_singleton.mp hd, mentions_eq] at hx
    simp only [ownMentions, children, nil_append, flatMap_cons,
      flatMap_nil, append_nil, mem_append] at hx
    rcases hx with hx | hx
    · exact h.sound body (mem_singleton_self _) x hx
    · exact hr x hx
  · intro x hx hk
    obtain ⟨c, hc, hl⟩ := h.complete x hx hk
    refine ⟨_, mem_singleton_self _, ?_⟩
    rw [lasting_elidable]
    exact mem_singleton.mp hc ▸ hl

end Made

end BlockLang
