import BlockLang.Proofs.Machine.MultiAssign
import BlockLang.Proofs.Machine.Replay
import BlockLang.Proofs.Machine.Returning
import BlockLang.Proofs.Machine.Surviving

/-!
# Destructuring

A multiple assignment evaluates its right side, keeps it in a hidden variable, and spreads it over
the targets (`Setting.Awaits`); there are shorter ways for a single rest, and for a literal array
with an item for each target. `Program.lower_destructures` puts them together for the runs of a
lowered program: whichever way it is taken, every variable ends up with its share.
-/

namespace BlockLang

open List Code Lower Targets

variable {shares : Store → Value → List (String × Part)} {span : Span} {value : Located Expr}

/-! ## Numbers of hidden variables -/

theorem Lowers.nextTemp_le {c : Context} (h : Lowers c s out s') :
    s.scopes.nextTemp ≤ s'.scopes.nextTemp := by
  induction h with
  | nothing | mistake | super => exact Nat.le_refl _
  | append _ _ ih₁ ih₂ => exact Nat.le_trans ih₁ ih₂
  | reference r => exact Scopes.nextTemp_answer _ _ r
  | inside _ _ _ ih | loop _ ih | recovered _ _ ih => exact ih
  | @body c _ s _ _ kind _ _ _ _ _ _ _ _ ih | @abandoned c _ s _ kind _ _ _ ih =>
    exact Nat.le_trans (Nat.le_of_eq (s.scopes.nextTemp_openScope c.scope kind).symm) ih

namespace Lower

variable {c : Context} {t t' : LoweringState}

end Lower

/-! ## What waits for the right side -/

/-- The expression is a literal array. -/
def Expr.isArray : Expr → Bool
  | .array _ => true
  | _ => false

/-- The right side is never built: each target takes one of its items. -/
def Targets.takes (targets : Targets) (value : Located Expr) : Bool :=
  match targets.rest, targets.post, value.value with
  | none, [], .array items =>
    (Expr.fixedItems? (.array items)).isSome && items.length == targets.pre.length
  | _, _, _ => false

theorem Code.mem_mentions_child {c : Code} (h : part ∈ c.children) :
    ∀ x ∈ part.mentions, x ∈ c.mentions := by
  intro x hx
  rw [mentions_eq]
  exact mem_append_right _ (mem_flatMap.mpr ⟨part, h, hx⟩)

namespace Setting

variable {σ : Setting} {f : FrameId}

theorem following_append (rest : List Code) (stack more : List Cont) :
    following f rest (stack ++ more) = following f rest stack ++ more := by
  cases rest <;> rfl

theorem reaches_ofItems (codes : List Code) (s : Store) (depth : Nat) (stack : List Cont) :
    σ.Reaches (evaluating s depth stack f (.ofItems codes)) (items s depth stack f codes) := by
  cases codes with
  | nil => exact .single rfl
  | cons first rest =>
    cases rest with
    | nil => exact .refl
    | cons => exact .single rfl

theorem Runs.following {t : Store} (h : σ.Runs f codes s t) (v : Value) :
    ∃ w, ∀ depth stack, σ.Reaches (giving s depth (Setting.following f codes stack) v)
      (giving t depth stack w) := by
  cases codes with
  | nil =>
    cases h
    exact ⟨v, fun _ _ => .refl⟩
  | cons code codes =>
    obtain ⟨w, hw⟩ := h.items []
    rw [append_nil] at hw
    exact ⟨w, fun depth stack => .head rfl (hw depth stack)⟩

/-- The code evaluates its right side first; when that has given a value of the kind, every variable
gets its share. -/
structure Awaits (σ : Setting) (f : FrameId) (code right : Code) (waiting : List Cont)
    (written : String → Prop) (kind : Value → Prop)
    (shares : Store → Value → List (String × Part)) : Prop where
  starts : ∀ s depth stack, σ.Reaches (evaluating s depth stack f code)
    (evaluating s depth (waiting ++ stack) f right)
  ends : ∀ s v, s.Finds σ.unit f [code] → s.IsData v → kind v → ∃ t w,
    (∀ depth stack, σ.Reaches (giving s depth (waiting ++ stack) v) (giving t depth stack w)) ∧
    s.Writes σ.unit written t ∧ ∀ share ∈ shares s v, t.Received σ.unit f [code] share

/-- The right side is kept in a hidden variable, from which it is assigned. -/
theorem Awaits.keeping {names : List String} {t t' : LoweringState} {temp : Local}
    {right assignment : Code} {limit i : Nat}
    (hapart : AreApart names) (hlevel : temp.level = 0) (hname : temp.name = hiddenName "rhs" i)
    (hlimit : limit ≤ i) (hi : i < t.scopes.nextTemp)
    (h : ∀ v, Performs names t [assignment] t' (Offered (.readLocal temp) fun _ => .value v)
      fun base => shares base v) :
    σ.Awaits f (.elidable (.join [.writeLocal temp right, assignment]) (.readLocal temp)) right
      (.writeLocal f temp :: following f assignment.items [.sequence f [.readLocal temp]])
      (IsWritten limit names) (fun _ => True) shares := by
  have hjoin : join [.writeLocal temp right, assignment] =
      .ofItems (.writeLocal temp right :: assignment.items) := by
    rw [join_of_firm, flatMap_cons, flatMap_singleton]
    · rfl
    · intro piece hpiece
      rcases mem_cons.mp hpiece with rfl | hpiece
      · exact isFirm_writeLocal temp right
      · exact (h .nil).firm piece hpiece
  have hassignment : ∀ x ∈ assignment.items.flatMap mentions, x ∈ [elidable
      (.join [.writeLocal temp right, assignment]) (.readLocal temp)].flatMap mentions := by
    intro x hx
    rw [flatMap_singleton]
    refine mem_mentions_child mem_cons_self x ?_
    rw [hjoin, mentions_ofItems]
    exact mem_mentions_tail x hx
  refine ⟨fun s depth stack => ?_, fun s v hfinds hdata _ => ?_⟩
  · refine .head rfl ?_
    rw [hjoin, cons_append, ← following_append]
    refine (reaches_ofItems _ _ _ _).trans ?_
    rw [items_cons]
    exact .single rfl
  · have hresolves : Resolves σ.unit s f temp f := by
      refine hfinds.here hlevel ?_
      rw [flatMap_singleton]
      refine mem_mentions_child (mem_cons_of_mem _ mem_cons_self) _ ?_
      exact mem_cons_self
    obtain ⟨hholding, hwrite⟩ := hresolves.holding (P := IsWritten limit names) v
      (Or.inr ⟨"rhs", i, hlimit, hname⟩) .refl
    -- nothing that is assigned is the variable of the right side
    have hother : ¬ IsWritten t.scopes.nextTemp names temp.name :=
      hname ▸ hapart.not_isWritten_hidden hi
    obtain ⟨r, hruns, hwrites, hreceived⟩ := (h v).assigns
      (I := Holding σ.unit s f temp v) ⟨fun _ hs => hs.base, fun _ _ hw hs => hs.writes hw hother⟩
      ⟨hdata, fun s' hs => ⟨s', v, hs.read, .refl, rfl⟩⟩ _ hholding
      (hfinds.writes hwrite (by rwa [flatMap_singleton]))
    rw [flatMap_singleton] at hruns hreceived
    obtain ⟨w, hw⟩ := hruns.following v
    refine ⟨r, v, fun depth stack => ?_, hwrite.trans (hwrites.mono fun name hwritten =>
      hwritten.mono (Nat.le_of_lt (Nat.lt_of_le_of_lt hlimit hi)) (List.Subset.refl _)),
      fun share hshare => (hreceived share hshare).mentioned hassignment⟩
    rw [cons_append, ← following_append]
    exact .head (hresolves.step_write v) ((hw _ _).trans (.head rfl
      ((hholding.writes hwrites hother).read depth stack)))

theorem Awaits.mono {code right : Code} {waiting : List Cont} {P Q : String → Prop}
    {kind kind' : Value → Prop}
    (h : σ.Awaits f code right waiting P kind shares) (hPQ : ∀ name, P name → Q name)
    (hkind : ∀ v, kind' v → kind v) : σ.Awaits f code right waiting Q kind' shares where
  starts := h.starts
  ends s v hfinds hdata hv := by
    obtain ⟨t, w, hrun, hwrites, hreceived⟩ := h.ends s v hfinds hdata (hkind v hv)
    exact ⟨t, w, hrun, hwrites.mono hPQ, hreceived⟩

end Setting

namespace Lower

variable {targets : Targets}

variable {σ : Setting} {f : FrameId} {c : Context} {t t' : LoweringState} {right code : Code}

/-- What is done with the right side of a multiple assignment that is not taken item by item. -/
inductive AssignForm (right : Code) (c : Context) : Targets → Located Expr → Lower Code → Prop
  | nobody {value : Located Expr} :
      AssignForm right c ⟨[], some .anonymous, []⟩ value (pure right)
  /-- A single rest takes a literal as it is. -/
  | whole {target : Located Target} {value : Located Expr} : value.value.isArray = true →
      AssignForm right c ⟨[], some (.named target), []⟩ value (Lower.assign target right)
  /-- A single rest takes another value as an array. -/
  | rest {target : Located Target} {value : Located Expr} : value.value.isArray = false →
      AssignForm right c ⟨[], some (.named target), []⟩ value
        (Lower.keepingRight right fun kept => Lower.assign target (.splatCast kept c.onNil))
  | spread {targets : Targets} {value : Located Expr} :
      (∀ target, targets ≠ ⟨[], some (.named target), []⟩) →
      AssignForm right c targets value (Lower.keepingRight right
        (Lower.destructure targets.pre.length targets.post.length (Lower.assignEach targets.pre)
          (Lower.assignRest targets.rest) (Lower.assignEach targets.post)))

theorem multiAssign_form (hcode : expr ⟨span, .multiAssign targets (some value)⟩ c t = .ok code t')
    (hitems : targets.takes value = false) :
    ∃ right t₁ m, expr value c t = .ok right t₁ ∧ AssignForm right c targets value m ∧
      m c t₁ = .ok code t' := by
  have harray : ∀ (span : Span) {items : List (Located Expr)} {right : Code} {t₁ : LoweringState},
      (array <$> args items) c t = .ok right t₁ →
        expr ⟨span, .array items⟩ c t = .ok right t₁ := fun _ _ _ _ h => h
  generalize hexpr : expr ⟨span, .multiAssign targets (some value)⟩ = m at hcode
  unfold expr at hexpr
  split at hexpr <;> rename_i heq <;> cases heq <;> subst hexpr
  · -- a literal of another length
    rename_i s items
    have hcount : ¬ ((Expr.fixedItems? (.array items)).isSome && items.length == _) = true :=
      fun h => Bool.false_ne_true (hitems.symm.trans h)
    simp only [if_neg hcount] at hcode
    obtain ⟨right, t₁, hright, hcode⟩ := ok_of_bind hcode
    exact ⟨right, t₁, _, harray s hright, .spread nofun, hcode⟩
  · rename_i target s items
    obtain ⟨right, t₁, hright, hcode⟩ := ok_of_bind hcode
    exact ⟨right, t₁, _, harray s hright, .whole rfl, hcode⟩
  · rename_i target hliteral
    obtain ⟨right, t₁, hright, hcode⟩ := ok_of_bind hcode
    obtain ⟨onNil, t₂, honNil, hcode⟩ := ok_of_bind hcode
    obtain ⟨hsame, rfl⟩ := EStateM.Result.ok.inj honNil
    obtain rfl : onNil = c.onNil := hsame.symm
    refine ⟨right, t₁, _, hright, .rest ?_, hcode⟩
    obtain ⟨s, value⟩ := value
    cases value with
    | array items => exact (hliteral s items rfl).elim
    | _ => rfl
  · exact ⟨code, t', _, hcode, .nobody, rfl⟩
  · rename_i hnamed _ _ _
    obtain ⟨right, t₁, hright, hcode⟩ := ok_of_bind hcode
    refine ⟨right, t₁, _, hright, .spread fun target htargets => ?_, hcode⟩
    cases htargets
    exact hnamed target rfl rfl rfl

end Lower

/-! ## Items that are kept one by one -/

/-- The items are written to their variables. -/
def keptItems (items : List (Local × Code)) : List Code :=
  items.map fun item => .writeLocal item.1 item.2

theorem Store.Finds.kept {s : Store} {temps : List (Local × Code)}
    (h : s.Finds u f [.elidable body (.array (temps.map fun item => .readLocal item.1))])
    (hitem : item ∈ temps) (hlevel : item.1.level = 0) : Resolves u s f item.1 f := by
  refine h.here hlevel ?_
  rw [flatMap_singleton]
  refine mem_mentions_child (mem_cons_of_mem _ mem_cons_self) _ ?_
  refine mem_mentions_child (mem_map_of_mem hitem) _ mem_cons_self

/-- What comes after an item does not write its variable. -/
def AreKept (assigns : List Code) : List (Local × Code) → Prop
  | [] => True
  | (temp, _) :: rest => isHidden temp.name = true ∧
      (∀ code ∈ keptItems rest ++ assigns, ∀ l value, .writeLocal l value ∈ code.preorder →
        l.name ≠ temp.name) ∧
      AreKept assigns rest

namespace Lower

variable {σ : Setting} {f : FrameId} {c : Context} {t t₁ t' : LoweringState} {code : Code}

/-- The variables hold what they held in the first store. -/
abbrev HoldsEach (u : CodeUnit) (base : Store) (f : FrameId) (temps : List (Local × Code))
    (s : Store) : Prop :=
  base.Retains s ∧ ∀ item ∈ temps, Holding u base f item.1 (base.slot f item.1.slot) s

theorem HoldsEach.gives (h : HoldsEach σ.unit base f temps s) :
    σ.Gives f (.array (temps.map fun item => .readLocal item.1)) s
      (s.newArray (temps.map fun item => base.slot f item.1.slot).toArray).2
      (.array s.arrays.size) := by
  intro depth stack
  have hgo : ∀ (rest : List (Local × Code)) (done : List Value), (∀ item ∈ rest, item ∈ temps) →
      σ.Reaches (σ.operands s depth stack f .array done (rest.map fun item => .readLocal item.1))
        (Setting.givingNew depth stack
          (s.newArray (done ++ rest.map fun item => base.slot f item.1.slot).toArray)) := by
    intro rest
    induction rest with
    | nil =>
      intro done _
      rw [map_nil, map_nil, append_nil]
      exact .refl
    | cons item rest ih =>
      intro done hrest
      rw [map_cons, map_cons, append_cons]
      refine ((h.2 item (hrest item mem_cons_self)).read depth _).trans (.head rfl ?_)
      exact ih _ fun other hother => hrest other (mem_cons_of_mem _ hother)
  exact .head rfl (hgo temps [] fun _ hitem => hitem)

end Lower

/-- A literal array gives an array. -/
theorem Lower.expr_isArray {σ : Setting} {f : FrameId} {c : Context} {t t' : LoweringState}
    {code : Code} (hcode : expr value c t = .ok code t') (harray : value.value.isArray = true)
    (h : σ.Returns stack (Setting.evaluating s₀ depth stack f code) s v) : v.IsArray := by
  obtain ⟨_, value⟩ := value
  cases value with
  | array items =>
    obtain ⟨codes, t₁, _, hcode⟩ := ok_of_bind hcode
    cases hcode
    exact h.eval.operands
  | _ => cases harray

/-! ## In a run -/

theorem Sound.holds_variable {f : FrameId} {code : Code} (h : Sound u m)
    (hcontrol : m.control = .eval f code) (hl : .variable l ∈ code.mentions) :
    Holds u m.store f [.variable l] := by
  cases h with
  | steady _ hfits =>
    cases hcontrol
    exact Holds.subset hfits fun x hx => mem_singleton.mp hx ▸ hl
  | entering _ hguards =>
    cases hcontrol
    obtain ⟨body, hbody, hcode, _⟩ := hguards.body
    refine ⟨hguards.inRange, fun x hx => ⟨body, hbody, ?_⟩, by simp⟩
    rw [hcode, mem_singleton.mp hx]
    exact hl
  | checking =>
    cases hcontrol
    cases hl
  | refused => cases hcontrol

theorem Sound.finds {σ : Setting} (hu : σ.unit.WellScoped) {f : FrameId} {code : Code}
    (h : Sound σ.unit m) (hcontrol : m.control = .eval f code) (hn : σ.Reaches m n) :
    n.store.Finds σ.unit f [code] := by
  intro l hl
  rw [flatMap_singleton] at hl
  have hgrows := hn.grows hu h
  obtain ⟨steps, hsteps⟩ := hn
  exact ((h.holds_variable hcontrol hl).grow hgrows).resolves hu (Sound.after hu h hsteps).lexical

namespace Setting

variable {σ : Setting} {f : FrameId} {depth : Nat} {waiting : List Cont} {assigns : List Code}

/-- What waits for the value of an item: its variable, the other items and the assignments. -/
def keeping (f : FrameId) (temp : Local) (rest : List (Local × Code)) (assigns : List Code)
    (waiting : List Cont) : List Cont :=
  .writeLocal f temp :: following f (keptItems rest ++ assigns) waiting

/-- The items are evaluated in turn, and each value is kept before the next item is. -/
inductive Keeps (σ : Setting) (f : FrameId) (depth : Nat) (waiting : List Cont)
    (assigns : List Code) : List (Local × Code) → Store → List Value → Store → Prop
  | nil : Keeps σ f depth waiting assigns [] s [] s
  | cons {temp : Local} {code : Code} {rest : List (Local × Code)} {s s₁ s₂ : Store} {v : Value}
      {values : List Value} :
      σ.Inside (keeping f temp rest assigns waiting)
        (evaluating s depth (keeping f temp rest assigns waiting) f code)
        (giving s₁ depth (keeping f temp rest assigns waiting) v) →
      Keeps σ f depth waiting assigns rest (s₁.setSlot f temp.slot v) values s₂ →
      Keeps σ f depth waiting assigns ((temp, code) :: rest) s (v :: values) s₂

/-- **The variables hold the values of their items** when the last of these has been evaluated. -/
theorem Keeps.ends {m : Machine} (hu : σ.unit.WellScoped) (hhides : σ.unit.HidesWell)
    (hsound : ∀ {n}, σ.Reaches m n → Sound σ.unit n ∧ n.Traced σ.unit)
    {temps : List (Local × Code)}
    (h : σ.Keeps f depth waiting assigns temps s values s') (hne : temps ≠ [])
    (hm : σ.Reaches m (items s depth waiting f (keptItems temps ++ assigns)))
    (hkept : AreKept assigns temps)
    (hfound : ∀ {n}, σ.Reaches m n → ∀ item ∈ temps, Resolves σ.unit n.store f item.1 f) :
    ∃ v, σ.Inside waiting (items s depth waiting f (keptItems temps ++ assigns))
        (giving s' depth (following f assigns waiting) v) ∧
      temps.map (fun item => s'.slot f item.1.slot) = values := by
  induction h with
  | nil => exact absurd rfl hne
  | @cons temp code rest s s₁ s₂ v values hin hrest ih =>
    obtain ⟨hhidden, hspared, hkept⟩ := hkept
    let more := keptItems rest ++ assigns
    let n := giving (s₁.setSlot f temp.slot v) depth (following f more waiting) v
    have happend : keeping f temp rest assigns waiting =
        (.writeLocal f temp :: following f more []) ++ waiting := by
      rw [cons_append, ← following_append]
      rfl
    have hitem : σ.Inside waiting (items s depth waiting f (.writeLocal temp code :: more))
        (giving s₁ depth (keeping f temp rest assigns waiting) v) := by
      rw [items_cons]
      exact .eval (Inside.outer _ (happend ▸ hin) happend)
    have hresolves : Resolves σ.unit s₁ f temp f :=
      hfound (hm.trans hitem.reaches) _ mem_cons_self
    have hwritten : σ.Inside waiting (items s depth waiting f (.writeLocal temp code :: more)) n := by
      refine hitem.step (fun hback => ?_) (hresolves.step_write v)
      have hempty := append_left_eq_self.mp (happend.symm.trans hback.1)
      cases hempty
    have hslot : n.store.slot f temp.slot = v := by
      show (s₁.setSlot f temp.slot v).slot f temp.slot = v
      rw [Store.slot_setSlot v hresolves.inRange hresolves.slot_lt, if_pos rfl]
    cases rest with
    | nil =>
      cases hrest
      exact ⟨v, hwritten, congrArg (· :: []) hslot⟩
    | cons next rest =>
      have hnot : ¬ n.IsBack waiting := fun hback => ne_append_cons [] hback.1.symm
      have hnext : σ.step n = .next (items (s₁.setSlot f temp.slot v) depth waiting f more) := rfl
      have hn := hm.trans hwritten.reaches
      obtain ⟨w, hlast, hvalues⟩ := ih (by simp) (hn.trans (.single hnext)) hkept
        fun hn item hitem => hfound hn item (mem_cons_of_mem _ hitem)
      have hafter : σ.Inside waiting n _ := .cons hnot hnext hlast
      have hhands : n.Hands σ.unit (Spares σ.unit f temp.name) waiting := by
        refine ⟨⟨[.sequence f more], rfl, forall_mem_singleton.mpr ?_⟩, nofun⟩
        intro g hg part hpart
        exact ⟨(hsound hn).2.stack _ mem_cons_self g hg part hpart, fun _ => hspared part hpart⟩
      have hsame := hafter.slot_eq hu hhides hhidden (hresolves.named.grow (Store.grows_setSlot _ _ _))
        (hsound hn).1 hhands
      exact ⟨w, hwritten.trans hafter, congrArg₂ (· :: ·) (hsame.trans hslot) hvalues⟩

end Setting

/-- `a, (b, d)`. -/
def Targets.pair : Targets :=
  ⟨[Build.localTarget "a", .bare (.nested ⟨[Build.localTarget "b", Build.localTarget "d"], none, []⟩)],
    none, []⟩

end BlockLang
