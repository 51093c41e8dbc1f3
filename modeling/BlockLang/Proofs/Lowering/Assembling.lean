import BlockLang.Proofs.Lowering.Placing

/-!
# Parts of lowering

What one part of lowering does with what is at hand, in two respects at once: its code is emitted
(`Emits`), and it stands where it may (`Supply.Sits`), as do the bodies that are finished for it.
`Puts` says so of two states and `Supplies` of code that is made without asking for anything.

`Lower.Builds` ties both to a part of lowering, with one rule for every line that a `do` block can
have.
-/

namespace BlockLang

open List Lower
open Lowers (Reaches)

/-! ## What follows from what is at hand -/

/-- All of `G` can be made without asking for anything, and may stand wherever what is at hand
may. -/
structure Supplies (E G : List Supply) : Prop where
  emits : ∀ (ρ : Policy) (N : Names) (k : ScopeId) (s : LoweringState), Emits ρ N k E s G s
  placed : ∀ (r : Register) (p : Site), (∀ x ∈ E, x.WellPlaced r p.plain) →
    ∀ x ∈ G, x.WellPlaced r p.plain

namespace Supplies

variable {E G G' : List Supply} {code : Code}

theorem of_subset (h : ∀ x ∈ G, x ∈ E) : Supplies E G :=
  ⟨fun _ _ _ _ => .supplied h, fun _ _ hE x hx => hE x (h x hx)⟩

theorem trans (h : Supplies E G) (h' : Supplies (G ++ E) G') : Supplies E G' :=
  ⟨fun ρ N k s => .step (h.emits ρ N k s) (h'.emits ρ N k s), fun r p hE =>
    h'.placed r p fun x hx => (mem_append.mp hx).elim (h.placed r p hE x) (hE x)⟩

theorem weaken {E' : List Supply} (h : Supplies E G) (hE : ∀ x ∈ E, x ∈ E') : Supplies E' G :=
  ⟨fun ρ N k s => (h.emits ρ N k s).weaken hE,
    fun r p hE' => h.placed r p fun x hx => hE' x (hE x hx)⟩

theorem append (h : Supplies E G) (h' : Supplies E G') : Supplies E (G ++ G') :=
  ⟨fun ρ N k s => (h.emits ρ N k s).append (h'.emits ρ N k s), fun r p hE x hx =>
    (mem_append.mp hx).elim (h.placed r p hE x) (h'.placed r p hE x)⟩

theorem each {codes : List Code} (h : ∀ c ∈ codes, Supplies E [.code c]) :
    Supplies E (codes.map .code) := by
  induction codes with
  | nil => exact of_subset (by simp)
  | cons c rest ih =>
    have hrest := ih fun d hd => h d (mem_cons_of_mem _ hd)
    exact (h c mem_cons_self).append hrest

/-! ### One piece of code -/

theorem one (hemits : ∀ ρ N k s, Emits ρ N k E s [.code code] s)
    (hplaced : ∀ (r : Register) (p : Site), (∀ x ∈ E, x.WellPlaced r p.plain) →
      code.WellPlaced r p.plain) : Supplies E [.code code] :=
  ⟨hemits, fun r p hE _ hx => mem_singleton.mp hx ▸ hplaced r p hE⟩

theorem code_placed (h : Supplies E [.code code]) {p : Site}
    (hE : ∀ x ∈ E, x.WellPlaced r p.plain) : code.WellPlaced r p.plain :=
  h.placed r p hE _ mem_cons_self

theorem code_of_mem (h : .code code ∈ E) : Supplies E [.code code] :=
  of_subset fun _ hx => mem_singleton.mp hx ▸ h

theorem emits_node (hc : (code.isNeutral && code.isFlat) = true)
    (h : ∀ part ∈ code.children, Supplies E [.code part]) (ρ : Policy) (N : Names) (k : ScopeId)
    (s : LoweringState) : Emits ρ N k E s [.code code] s := by
  refine .step ((each h).emits ρ N k s) (.node hc fun part hpart => ?_)
  exact mem_append_left _ (mem_map.mpr ⟨part, hpart, rfl⟩)

theorem node (hc : (code.isNeutral && code.isFlat && code.isUnbound) = true)
    (h : ∀ part ∈ code.children, Supplies E [.code part]) : Supplies E [.code code] := by
  have hc := Bool.and_eq_true_iff.mp hc
  refine .one (emits_node hc.1 h) fun r p hE => .unbound hc.2 fun part hpart => ?_
  exact (h part hpart).code_placed hE

theorem leaf (hc : (code.isNeutral && code.isFlat && code.isUnbound) = true)
    (h : code.children = []) : Supplies E [.code code] :=
  node hc (by simp [h])

theorem like (other : Code) (hother : .code other ∈ E) (hc : (code.isNeutral && code.isFlat) = true)
    (hadmits : ∀ {r : Register} {p : Site}, r.Admits p other → r.Admits p code)
    (hparts : ∀ p, code.partsAt p = code.children.map (p.plain, ·))
    (h : ∀ part ∈ code.children, Supplies E [.code part]) : Supplies E [.code code] := by
  refine .one (emits_node hc h) fun r p hE => .ofChildren ?_ (hparts _) fun part hpart => ?_
  · exact hadmits (Code.WellPlaced.admits (hE _ hother))
  · exact (h part hpart).code_placed hE

theorem join {pieces : List Code} (h : ∀ c ∈ pieces, Supplies E [.code c]) :
    Supplies E [.code (.join pieces)] := by
  refine .one (fun ρ N k s => .step ((each h).emits ρ N k s) (.join fun c hc => ?_))
    fun r p hE => ?_
  · exact mem_append_left _ (mem_map.mpr ⟨c, hc, rfl⟩)
  · exact .join fun c hc => (h c hc).code_placed hE

theorem read (hl : .readable l ∈ E) : Supplies E [.code (.readLocal l)] :=
  .one (fun _ _ _ _ => .read hl) fun _ _ _ => .leaf rfl rfl

theorem write (hl : .reference l ∈ E) (h : Supplies E [.code value]) :
    Supplies E [.code (.writeLocal l value)] := by
  refine .one (fun ρ N k s => .step (h.emits ρ N k s) ?_) fun r p hE =>
    .unbound rfl fun part hpart => ?_
  · exact .write (mem_append_right _ hl) mem_cons_self
  · rw [mem_singleton.mp hpart]
    exact h.code_placed hE

theorem take (h : .items array ∈ E) (hc : code.TakesFrom array) : Supplies E [.code code] := by
  refine .one (fun _ _ _ _ => .take h hc) fun r p _ => .inert fun part hpart => ?_
  cases hc <;> revert part <;> exact all_eq_true.mp rfl

end Supplies

/-! ## From one state to another -/

/-- What is put together in the context, from what is at hand: it was emitted, and it stands where
it may, as do the bodies that were finished in between. -/
structure Puts (ρ : Policy) (N : Names) (c : Context) (E : List Supply) (s : LoweringState)
    (G : List Supply) (s' : LoweringState) : Prop where
  emits : Emits ρ N c.scope E s G s'
  reaches : Reaches c s s'
  placed : ∀ first start, Ground c first start s → (∀ x ∈ E, x.Sits c first s) →
    Ground c first start s' ∧ ∀ x ∈ G, x.Sits c first s'

namespace Puts

variable {ρ : Policy} {N : Names} {c : Context} {E E' G G' : List Supply}
  {s s₁ s₂ s₃ : LoweringState}

theorem supplied (h : Supplies E G) : Puts ρ N c E s G s :=
  ⟨h.emits _ _ _ _, .refl, fun _ _ hg hE => ⟨hg, h.placed _ (c.site s) hE⟩⟩

theorem step (h₁ : Puts ρ N c E s G s₁) (h₂ : Puts ρ N c (G ++ E) s₁ G' s₂) :
    Puts ρ N c E s G' s₂ := by
  refine ⟨.step h₁.emits h₂.emits, h₁.reaches.trans h₂.reaches, fun first start hg hE => ?_⟩
  obtain ⟨hg₁, hG⟩ := h₁.placed first start hg hE
  refine h₂.placed first start hg₁ fun x hx => (mem_append.mp hx).elim (hG x) fun hx => ?_
  exact (hE x hx).later hg h₁.reaches

theorem weaken (h : Puts ρ N c E s G s₁) (hE : ∀ x ∈ E, x ∈ E') : Puts ρ N c E' s G s₁ :=
  ⟨h.emits.weaken hE, h.reaches, fun first start hg hE' =>
    h.placed first start hg fun x hx => hE' x (hE x hx)⟩

theorem append (h₁ : Puts ρ N c E s G s₁) (h₂ : Puts ρ N c E s₁ G' s₂) :
    Puts ρ N c E s (G ++ G') s₂ := by
  refine .step h₁ (.step (h₂.weaken fun _ => mem_append_right _) (.supplied ?_))
  exact .of_subset fun x hx => by grind

theorem inContext {c' : Context} (h : Puts ρ N c' E s G s₁) (hscope : c'.scope = c.scope)
    (hkind : c'.kind = c.kind) (hloop : c'.inLoop = c.inLoop) (hmethod : c'.method = c.method) :
    Puts ρ N c E s G s₁ := by
  have hsite : ∀ s, c'.site s = c.site s := fun s => by
    unfold Context.site
    rw [hscope, hkind, hloop]
  have hsits : ∀ {first s x}, Supply.Sits c' first s x ↔ Supply.Sits c first s x := by
    intro first s x
    unfold Supply.Sits
    rw [hsite s]
  have hground : ∀ {first start s}, Ground c' first start s ↔ Ground c first start s :=
    ⟨fun h => ⟨h.sound, hscope ▸ h.scope, h.apart, h.issued, h.bodies⟩,
      fun h => ⟨h.sound, hscope ▸ h.scope, h.apart, h.issued, h.bodies⟩⟩
  refine ⟨hscope ▸ h.emits, ?_, fun first start hg hE => ?_⟩
  · obtain ⟨_, h⟩ := h.reaches
    exact ⟨_, .inside h hscope hmethod⟩
  · obtain ⟨hg₁, hG⟩ := h.placed first start (hground.mpr hg) fun x hx => hsits.mpr (hE x hx)
    exact ⟨hground.mp hg₁, fun x hx => hsits.mp (hG x hx)⟩

theorem asked (hemits : Emits ρ N c.scope E s G s₁) (hreach : Reaches c s s₁)
    (hunit : s₁.unit = s.unit) (hG : ∀ x ∈ G, ∀ r p, x.WellPlaced r p) : Puts ρ N c E s G s₁ :=
  ⟨hemits, hreach, fun _ _ hg _ => ⟨hg.same hreach hunit, fun x hx => hG x hx _ _⟩⟩

theorem admitted {code : Code} (hc : (code.isNeutral && code.isFlat) = true)
    (hadmits : ∀ first, (s.register first).Admits (c.site s) code)
    (hparts : ∀ p, code.partsAt p = code.children.map (p.plain, ·))
    (h : ∀ part ∈ code.children, Supplies E [.code part]) : Puts ρ N c E s [.code code] s := by
  refine ⟨Supplies.emits_node hc h _ _ _ _, .refl, fun first _ hg hE => ⟨hg, fun x hx => ?_⟩⟩
  rw [mem_singleton.mp hx]
  exact .ofChildren (hadmits _) (hparts _) fun part hpart =>
    (h part hpart).code_placed (p := c.site s) hE

theorem spread (onNil : NilAsArray) (size : Nat) (hvalue : .code value ∈ E)
    (h₁ : Puts ρ N c (.items (s.scopes.addTemp c.scope "array").1 :: E) (s.addTemp c.scope "array")
      (large.map .code) s₁)
    (h₂ : Puts ρ N c (.items (s.scopes.addTemp c.scope "array").1 :: E) s₁ (small.map .code) s₂)
    (h₃ : Puts ρ N c E s₂ (nothing.map .code) s₃) :
    Puts ρ N c E s [.code (.spread (s.scopes.addTemp c.scope "array").1 value onNil size
      nothing large small)] s₃ := by
  have hall := (h₁.append h₂).append (h₃.weaken fun _ => mem_cons_of_mem _)
  have htemp : Reaches c s (s.addTemp c.scope "array") := ⟨_, .reference (.temp "array")⟩
  refine ⟨.spread onNil size hvalue h₁.emits h₂.emits h₃.emits, htemp.trans hall.reaches,
    fun first start hg hE => ?_⟩
  have hg₀ := hg.same htemp rfl
  have hE₀ : ∀ x ∈ E, x.Sits c first (s.addTemp c.scope "array") :=
    fun x hx => (hE x hx).later hg htemp
  obtain ⟨hg₃, hcodes⟩ := hall.placed first start hg₀ (forall_mem_cons.mpr ⟨trivial, hE₀⟩)
  have hjoin : ∀ {codes : List Code},
      (∀ code ∈ codes, code ∈ large ∨ code ∈ small ∨ code ∈ nothing) →
      (Code.join codes).WellPlaced (s₃.register first) (c.site s₃).plain :=
    fun h => .join fun code hcode => hcodes (.code code) (by have := h code hcode; simp; grind)
  refine ⟨hg₃, fun x hx => ?_⟩
  rw [mem_singleton.mp hx]
  refine Code.WellPlaced.join (p := c.site s₃) fun code hcode => ?_
  simp only [mem_cons, not_mem_nil, or_false] at hcode
  rcases hcode with rfl | rfl
  · refine .unbound rfl fun part hpart => mem_singleton.mp hpart ▸
      .unbound rfl fun part hpart => mem_singleton.mp hpart ▸ ?_
    exact (hE₀ _ hvalue).later hg₀ hall.reaches
  · refine .unbound rfl fun part hpart => ?_
    simp only [Code.children, mem_cons, not_mem_nil, or_false] at hpart
    rcases hpart with rfl | rfl | rfl
    · exact .inert (all_eq_true.mp rfl)
    · exact hjoin fun code hcode => .inr (.inr hcode)
    · refine .unbound rfl fun part hpart => ?_
      simp only [Code.children, mem_cons, not_mem_nil, or_false] at hpart
      rcases hpart with rfl | rfl | rfl
      · exact .inert (all_eq_true.mp rfl)
      · exact hjoin fun code hcode => .inl hcode
      · exact hjoin fun code hcode => .inr (.inl hcode)

theorem eitherWay (hpositional : ∀ code ∈ positional, .code code ∈ E)
    (h : Puts ρ N c (.items (s.scopes.addTemp c.scope "destructure").1 :: E)
      (s.addTemp c.scope "destructure") (fromItems.map .code) s₁) :
    Puts ρ N c E s [.code (.eitherWay (s.scopes.addTemp c.scope "destructure").1 fromItems
      positional)] s₁ := by
  have htemp : Reaches c s (s.addTemp c.scope "destructure") :=
    ⟨_, .reference (.temp "destructure")⟩
  refine ⟨.eitherWay hpositional h.emits, htemp.trans h.reaches, fun first start hg hE => ?_⟩
  have hg₀ := hg.same htemp rfl
  have hE₀ : ∀ x ∈ E, x.Sits c first (s.addTemp c.scope "destructure") :=
    fun x hx => (hE x hx).later hg htemp
  obtain ⟨hg₁, hcodes⟩ := h.placed first start hg₀ (forall_mem_cons.mpr ⟨trivial, hE₀⟩)
  refine ⟨hg₁, fun x hx => ?_⟩
  rw [mem_singleton.mp hx]
  refine Code.WellPlaced.unbound (p := c.site s₁) rfl fun part hpart => ?_
  simp only [Code.eitherWay, Code.children, mem_cons, not_mem_nil, or_false] at hpart
  rcases hpart with rfl | rfl | rfl
  · exact .leaf rfl rfl
  · refine .join fun code hcode => ?_
    rcases mem_cons.mp hcode with rfl | hcode
    · exact .inert (all_eq_true.mp rfl)
    · exact hcodes (.code code) (mem_map.mpr ⟨code, hcode, rfl⟩)
  · exact .join fun code hcode => (hE₀ _ (hpositional code hcode)).later hg₀ h.reaches

theorem loop (bodyFirst : Bool)
    (h : Puts ρ N { c with inLoop := true } [] (s.enterLoop c.scope)
      (.code condition :: codes.map .code) s₁) :
    Puts ρ N c E s [.code (.loop condition (.join codes) bodyFirst ⟨s.scopes.nextBreak⟩)]
      (s₁.setBreak c.scope (s.breakOf c.scope)) := by
  have hreach : Reaches c s (s₁.setBreak c.scope (s.breakOf c.scope)) :=
    let ⟨_, h⟩ := h.reaches
    ⟨_, .loop (.inside h rfl rfl)⟩
  refine ⟨.step (.loop (h.emits.weaken (by simp)))
      (Supplies.emits_node rfl (fun part hpart => ?_) _ _ _ _),
    hreach, fun first start hg _ => ?_⟩
  · simp only [Code.children, mem_cons, not_mem_nil, or_false] at hpart
    rcases hpart with rfl | rfl
    · exact .code_of_mem (by simp)
    · exact .join fun code hcode => .code_of_mem (by simp [hcode])
  have hg₀ := hg.enterLoop
  obtain ⟨hg₁, hcodes⟩ := h.placed _ _ hg₀ (by simp)
  have hsite : { c with inLoop := true }.site s₁ = (c.site s).loop ⟨s.scopes.nextBreak⟩ :=
    (h.reaches.site hg₀.sound hg₀.scope).trans hg.site_enterLoop
  -- what was put together inside, held against the scopes as they are after the loop
  have hinside : ∀ x ∈ Supply.code condition :: codes.map .code,
      x.WellPlaced ((s₁.setBreak c.scope (s.breakOf c.scope)).register first)
        ((c.site s).loop ⟨s.scopes.nextBreak⟩) := by
    intro x hx
    have hx := hcodes x hx
    unfold Supply.Sits at hx
    rw [hsite] at hx
    exact hx.within hg.register_leaveLoop
  refine ⟨hg.later hreach fun b body hb _ hbody => ?_, fun x hx => ?_⟩
  · have hne : b ≠ c.scope := Nat.ne_of_gt (Nat.lt_of_lt_of_le hg.scope hb)
    refine (hg₁.bodies b body hb hbody).imp id fun h => h.within (.of_get? ?_) hg.register_leaveLoop
    exact (Scopes.get?_modify ..).trans (by simp [hne])
  · rw [mem_singleton.mp hx]
    unfold Supply.Sits
    rw [hreach.site hg.sound hg.scope]
    refine ⟨hg.isLoop_leaveLoop h.reaches, fun q part hpart => ?_⟩
    simp only [Code.partsAt, mem_cons, not_mem_nil, or_false, Prod.mk.injEq] at hpart
    rcases hpart with ⟨rfl, rfl⟩ | ⟨rfl, rfl⟩
    · exact hinside (.code _) mem_cons_self
    · refine Code.WellPlaced.join (p := (c.site s).loop ⟨s.scopes.nextBreak⟩) fun code hcode => ?_
      exact hinside (.code code) (mem_cons_of_mem _ (mem_map.mpr ⟨code, hcode, rfl⟩))

end Puts

/-! ## Calls with a block -/

variable {ρ : Policy} {N : Names} {E : List Supply} {s : LoweringState}

theorem Emits.catching (h : Emits ρ N k E s [.code call] s) (breakId : Option BreakId) :
    Emits ρ N k E s [.code (catchBreak breakId call)] s := by
  cases breakId with
  | none => exact h
  | some id => exact .step h (.node rfl (by simp [catchBreak, Code.children]))

namespace BlockOperand

/-- The code of a block, if a call has one. -/
def block? : BlockOperand → Option Code
  | absent => none
  | passed block | literal block _ => some block

/-- What a `break` in the block leaves. -/
def breakId? : BlockOperand → Option BreakId
  | absent | passed _ => none
  | literal _ breakId => breakId

/-- What a call takes from its block: that it may be passed to a call, and the block itself unless
it is written out. -/
def supplies (op : BlockOperand) : List Supply :=
  .code (op.call none "" []) :: (op.block?.filter (!·.isBlock)).toList.map .code

variable {E : List Supply}

theorem call_eq (op : BlockOperand) (receiver : Option Code) (method : String) (args : List Code) :
    op.call receiver method args =
      catchBreak op.breakId? (.call receiver method args op.block?) := by
  cases op <;> rfl

theorem super_eq (op : BlockOperand) (args : List Code) : ∃ forward,
    op.super args = catchBreak op.breakId? (.super args op.block? forward) := by
  cases op <;> exact ⟨_, rfl⟩

variable {op : BlockOperand}

theorem emits_block (hop : ∀ x ∈ op.supplies, x ∈ E) (ρ : Policy) (N : Names) (k : ScopeId)
    (s : LoweringState) : Emits ρ N k E s (op.block?.toList.map .code) s := by
  unfold supplies at hop
  cases hblock : op.block? with
  | none => exact .supplied (by simp)
  | some block =>
    cases hwritten : block.isBlock with
    | false =>
      rw [hblock] at hop
      refine .supplied fun x hx => hop x (mem_cons_of_mem _ ?_)
      simpa [Option.filter, hwritten] using hx
    | true =>
      cases block with
      | closure => exact .node rfl (by simp [Code.children])
      | _ => simp [Code.isBlock] at hwritten

theorem placed_catching {r : Register} {p : Site} {inner : Code}
    (hop : (op.call none "" []).WellPlaced r p)
    (hpasses : inner.passesBlock = op.block?.any Code.isBlock)
    (hinner : ∀ caught, (∀ block ∈ op.block?, block.WellPlaced r { p with caught }) →
      inner.WellPlaced r { p with caught }) :
    (catchBreak op.breakId? inner).WellPlaced r p := by
  rw [call_eq] at hop
  cases hid : op.breakId? with
  | none =>
    rw [hid] at hop
    refine hinner p.caught fun block hblock => hop.part ?_
    simp_all [catchBreak, Code.partsAt]
  | some id =>
    rw [hid] at hop
    have hcall : (Code.call none "" [] op.block?).WellPlaced r (p.catching id) :=
      hop.part mem_cons_self
    refine .catchBreak (hpasses.trans hop.admits) (hinner (some id) fun block hblock => ?_)
    exact hcall.part (by simp_all [Code.partsAt, Site.catching])

theorem supplies_catching {inner : Code} (hop : ∀ x ∈ op.supplies, x ∈ E)
    (hc : (inner.isNeutral && inner.isFlat) = true)
    (hpasses : inner.passesBlock = op.block?.any Code.isBlock)
    (hparts : ∀ part ∈ inner.children, part ∈ op.block? ∨ .code part ∈ E)
    (hinner : ∀ {r : Register} {p : Site}, (∀ x ∈ E, x.WellPlaced r p.plain) →
      (∀ block ∈ op.block?, block.WellPlaced r p) → inner.WellPlaced r p) :
    Supplies E [.code (catchBreak op.breakId? inner)] := by
  refine .one (fun ρ N k s => ?_) fun r p hE => ?_
  · have hcall : Emits ρ N k E s [.code inner] s := by
      refine .step (emits_block hop ρ N k s) (.node hc fun part hpart => mem_append.mpr ?_)
      exact (hparts part hpart).imp (fun h => by simp_all) id
    exact hcall.catching op.breakId?
  · have hop := hE _ (hop _ mem_cons_self)
    exact placed_catching hop hpasses fun caught hblock => hinner (by exact hE) hblock

theorem supplies_call (op : BlockOperand) {receiver : Option Code} (method : String)
    {args : List Code} (hop : ∀ x ∈ op.supplies, x ∈ E) (hreceiver : ∀ r ∈ receiver, .code r ∈ E)
    (hargs : ∀ a ∈ args, .code a ∈ E) : Supplies E [.code (op.call receiver method args)] := by
  rw [call_eq]
  refine supplies_catching hop rfl rfl (fun part hpart => ?_) fun hE hblock => ?_
  · simp only [Code.children, mem_append, Option.mem_toList] at hpart
    grind
  · exact .call (fun part hpart => hE _ (hreceiver part hpart))
      (fun part hpart => hE _ (hargs part hpart)) hblock

theorem supplies_super (op : BlockOperand) {args : List Code} (hop : ∀ x ∈ op.supplies, x ∈ E)
    (hargs : ∀ a ∈ args, .code a ∈ E) : Supplies E [.code (op.super args)] := by
  obtain ⟨forward, heq⟩ := op.super_eq args
  rw [heq]
  refine supplies_catching hop rfl rfl (fun part hpart => ?_) fun hE hblock => ?_
  · simp only [Code.children, mem_append, Option.mem_toList] at hpart
    grind
  · exact .super (fun part hpart => hE _ (hargs part hpart)) hblock

theorem supplies_passed (hblock : .code block ∈ E) : Supplies E (passed block).supplies := by
  refine .append (G := [_]) (.one (fun _ _ _ _ => .node rfl ?_) fun r p hE => ?_) (.of_subset ?_)
  · simp [call, Code.children, hblock]
  · exact .call (by simp) (by simp) fun part hpart => by cases hpart; exact hE _ hblock
  · simp [block?, hblock]

end BlockOperand

/-- The code that stands for a body where it has been made. -/
def BodyKind.use (name : String) (b : BodyId) (breakId : Option BreakId) : BodyKind → Code
  | .topLevel => .nil
  | .method => .define name b
  | .classBody => .openClass name none false b
  | .moduleBody => .openClass name none true b
  | .block => (BlockOperand.literal (.closure b false) breakId).call none "" []
  | .lambda => .closure b true

theorem BodyKind.emits_use (name : String) (b : BodyId) (breakId : Option BreakId)
    (kind : BodyKind) : Emits ρ N k E s [.code (kind.use name b breakId)] s := by
  cases kind with
  | block =>
    have hcall : Emits ρ N k E s [.code (.call none "" [] (some (.closure b false)))] s :=
      .step (G := [.code (.closure b false)]) (.node rfl (by simp [Code.children]))
        (.node rfl (by simp [Code.children]))
    exact hcall.catching breakId
  | _ => exact .node rfl (by simp [use, Code.children])

theorem Compiled.use {name : String} (h : Compiled r p b name kind body) :
    (kind.use name b body.breakId).WellPlaced r p.plain := by
  have hleaf : ∀ {code : Code}, r.Admits p.plain code → code.partsAt p.plain = [] →
      code.WellPlaced r p.plain := fun hadmits hparts => ⟨hadmits, by simp [hparts]⟩
  cases kind with
  | topLevel => exact .leaf rfl rfl
  | method => exact hleaf ⟨body, h.has, h.ofKind, h.named⟩ rfl
  | classBody | moduleBody | lambda => exact hleaf ⟨body, h.has, h.ofKind⟩ rfl
  | block =>
    obtain ⟨id, hid⟩ := Option.isSome_iff_exists.mp (h.breaks rfl)
    rw [hid]
    refine .catchBreak rfl (.call (by simp) (by simp) fun part hpart => ?_)
    cases hpart
    exact ⟨⟨body, h.has, h.ofKind, h.returns rfl, rfl, hid⟩, by simp [Code.partsAt, Code.children]⟩

theorem Puts.body {c inner : Context} {s' : LoweringState} {kind : BodyKind} {code : Code}
    {names : List String} (name : String) (arity : Arity) (span : Span)
    (hscope : inner.scope = (s.scopes.openScope c.scope kind).1) (hkind : inner.kind = kind)
    (hloop : inner.inLoop = false) (hnames : ∀ n ∈ names, ρ.name n)
    (hstems : Stems ρ inner.scope code (s.enter c.scope kind) s' kind arity span names)
    (hin : Reaches inner (s.enter c.scope kind) s')
    (hreach : Reaches c s (s'.finish (s'.bodyOf s.nextBody name kind
      (s.scopes.openScope c.scope kind).1 arity span code)))
    (h : Puts ρ (fun _ => True) inner (names.map .own)
      ((s.enter c.scope kind).declareAll inner.scope names) [.code code] s') :
    Puts ρ N c E s
      [.code (kind.use name s.nextBody (s'.breakOf (s.scopes.openScope c.scope kind).1))]
      (s'.finish (s'.bodyOf s.nextBody name kind (s.scopes.openScope c.scope kind).1 arity span
        code)) := by
  refine ⟨.step (.body name arity span rfl hnames (hscope ▸ hstems) (hscope ▸ h.emits))
    (kind.emits_use ..), hreach, fun first start hg hE => ?_⟩
  have hfst : (s.scopes.openScope c.scope kind).1 = s.nextBody :=
    LoweringState.openScope_fst hg.sound
  rw [hfst] at hscope hreach ⊢
  have hgin : Ground inner first start (s.enter c.scope kind) := hg.enter hscope
  obtain ⟨_, hdeclared, _⟩ := Meets.declareAll (c := inner) names (s.enter c.scope kind)
  obtain ⟨hg', hcode⟩ := h.placed first start (hgin.same ⟨_, hdeclared⟩ rfl)
    (by simp [Supply.Sits, Supply.WellPlaced])
  obtain ⟨hsite, hm, hcompiled⟩ := hg.compiled hscope hkind hloop hin name arity span code
  refine ⟨hg.later hreach fun b other _ hstart hother => ?_, fun x hx => ?_⟩
  · refine hg'.bodies_finish (fun old => hg.body?_open hscope hin) ⟨hm, ?_⟩ hstart hother
    rw [hsite]
    exact hcode _ mem_cons_self
  · rw [mem_singleton.mp hx]
    unfold Supply.Sits
    rw [hreach.site hg.sound hg.scope]
    exact hcompiled.use

/-! ## Parts of lowering -/

namespace Lower

variable {α β : Type} {ρ : Policy} {N : Names} {c : Context} {E : List Supply}

/-- The outcome of a part: mistakes are only added, and without one the answer was put together. -/
def Built (ρ : Policy) (N : Names) (c : Context) (E : List Supply) (pieces : α → List Supply)
    (s : LoweringState) : EStateM.Result Diagnostic LoweringState α → Prop
  | .ok a s' => s.mistakes <+: s'.mistakes ∧ (s'.mistakes = [] → Puts ρ N c E s (pieces a) s')
  | .error _ s' => s.mistakes <+: s'.mistakes

/-- The part puts its answer together from what is at hand. -/
def Builds (ρ : Policy) (N : Names) (m : Lower α) (c : Context) (E : List Supply)
    (pieces : α → List Supply) : Prop :=
  ∀ s, Built ρ N c E pieces s (m c s)

section

variable {c' : Context} {E' : List Supply} {pieces : α → List Supply} {pieces' : β → List Supply}
  {t s : LoweringState}

/-- What was built from a state on, seen from an earlier one. -/
theorem Built.since {pieces' : α → List Supply} (h : Built ρ N c E pieces s r)
    (hmore : t.mistakes <+: s.mistakes)
    (hputs : ∀ a s', s.mistakes = [] → Puts ρ N c E s (pieces a) s' →
      Puts ρ N c' E' t (pieces' a) s') :
    Built ρ N c' E' pieces' t r := by
  cases r with
  | error _ _ => exact hmore.trans h
  | ok a s' =>
    refine ⟨hmore.trans h.1, fun hclean => hputs a s' ?_ (h.2 hclean)⟩
    exact prefix_nil.mp (hclean ▸ h.1)

theorem Built.andThen {m : Lower α} {f : α → Lower β}
    (h : Built ρ N c E pieces s (m c s)) (hmore : t.mistakes <+: s.mistakes)
    (hf : ∀ {a s'}, m c s = .ok a s' → s.mistakes <+: s'.mistakes →
      (s'.mistakes = [] → Puts ρ N c E s (pieces a) s') → Built ρ N c' E' pieces' t (f a c s')) :
    Built ρ N c' E' pieces' t ((m >>= f) c s) := by
  rw [bind_run]
  cases hs : m c s with
  | error _ _ =>
    rw [hs] at h
    exact hmore.trans h
  | ok a s' =>
    rw [hs] at h
    exact hf hs h.1 h.2

end

namespace Builds

variable {pieces : α → List Supply} {pieces' : β → List Supply}

theorem pure (h : Supplies E (pieces a)) : Builds ρ N (Pure.pure a : Lower α) c E pieces :=
  fun _ => ⟨prefix_rfl, fun _ => .supplied h⟩

variable {m : Lower α} {name : String}

theorem bindOf (hm : Builds ρ N m c E pieces)
    (hf : ∀ {s a s'}, m c s = .ok a s' → Builds ρ N (f a) c (pieces a ++ E) pieces') :
    Builds ρ N (m >>= f) c E pieces' :=
  fun s => (hm s).andThen prefix_rfl fun hs hmore hputs =>
    (hf hs _).since hmore fun _ _ hclean hrest => .step (hputs hclean) hrest

theorem bind (hm : Builds ρ N m c E pieces)
    (hf : ∀ a, Builds ρ N (f a) c (pieces a ++ E) pieces') : Builds ρ N (m >>= f) c E pieces' :=
  hm.bindOf fun _ => hf _

theorem map (hm : Builds ρ N m c E pieces) (hf : ∀ a, Supplies (pieces a ++ E) (pieces' (f a))) :
    Builds ρ N (f <$> m) c E pieces' := by
  rw [map_eq_pure_bind]
  exact hm.bind fun a => .pure (hf a)

theorem fail {mistake : Mistake} {span : Span} :
    Builds ρ N (fail mistake span : Lower α) c E pieces :=
  fun _ => prefix_rfl

theorem read (h : Builds ρ N (f c) c E pieces) : Builds ρ N (MonadReader.read >>= f) c E pieces :=
  h

/-- What is answered in place of a mistake does not matter: there is a mistake then. -/
theorem recover (hm : Builds ρ N m c E pieces) :
    Builds ρ N (recover fallback m) c E pieces := by
  intro s
  have hm := hm s
  rw [recover_run]
  cases hs : m c s with
  | ok a s' =>
    rw [hs] at hm
    exact hm
  | error d s' =>
    rw [hs] at hm
    have hmore : s'.mistakes <+: s'.mistakes ++ [d] := prefix_append _ _
    exact ⟨hm.trans hmore, fun hclean => absurd hclean (by simp)⟩

theorem inContext {change : Change} (hscope : (change.make c).scope = c.scope)
    (hkind : (change.make c).kind = c.kind) (hloop : (change.make c).inLoop = c.inLoop)
    (hmethod : (change.make c).method = c.method) (hm : Builds ρ N m (change.make c) E pieces) :
    Builds ρ N (during change m) c E pieces :=
  fun s => during_run ▸ (hm s).since prefix_rfl fun _ _ _ h => h.inContext hscope hkind hloop hmethod

theorem quiet (h : ∀ s, (∃ a, m c s = .ok a s) ∨ ∃ d, m c s = .error d s) :
    Builds ρ N m c E fun _ => [] := by
  intro s
  rcases h s with ⟨a, hrun⟩ | ⟨d, hrun⟩
  · rw [hrun]
    exact ⟨prefix_rfl, fun _ => .supplied (.of_subset (by simp))⟩
  · rw [hrun]
    exact prefix_rfl

theorem mapM {γ : Type} {f : γ → Lower Code} : ∀ {as : List γ} {E : List Supply},
    (∀ a ∈ as, ∀ E', (∀ x ∈ E, x ∈ E') → Builds ρ N (f a) c E' fun code => [.code code]) →
      Builds ρ N (as.mapM f) c E fun codes => codes.map .code
  | [], _, _ => by
    rw [mapM_nil]
    exact .pure (.of_subset (by simp))
  | a :: rest, E, h => by
    rw [mapM_cons]
    refine (h a mem_cons_self E fun _ hx => hx).bind fun first => ?_
    refine Builds.bind (mapM fun b hb E' hE => ?_) fun codes => .pure (.of_subset ?_)
    · exact h b (mem_cons_of_mem _ hb) E' fun x hx => hE x (mem_append_right _ hx)
    · simp
      grind

/-! ## References -/

/-- A variable to be read and written. -/
abbrev usable (l : Local) : List Supply := [.reference l, .readable l]

theorem reference {m : Lower Local} (r : Request) (hr : r.Allowed ρ E)
    (hm : ∀ s, ∃ l, (s.scopes.answer c.scope r).1 = some l ∧
      m c s = .ok l { s with scopes := (s.scopes.answer c.scope r).2 }) :
    Builds ρ N m c E fun l => [.reference l] := by
  intro s
  obtain ⟨l, hl, hrun⟩ := hm s
  rw [hrun]
  exact ⟨prefix_rfl, fun _ =>
    .asked (.reference r hr hl) ⟨_, .reference r⟩ rfl (by simp [Supply.WellPlaced])⟩

theorem readable {m : Lower Local} (r : Request) (hr : r.Allowed ρ E)
    (hread : ∀ s : Scopes, MayRead N (s.requested r))
    (hm : ∀ s, ∃ l, (s.scopes.answer c.scope r).1 = some l ∧
      m c s = .ok l { s with scopes := (s.scopes.answer c.scope r).2 }) :
    Builds ρ N m c E usable := by
  intro s
  obtain ⟨l, hl, hrun⟩ := hm s
  rw [hrun]
  exact ⟨prefix_rfl, fun _ =>
    .asked (.usable r hr hl (hread s.scopes)) ⟨_, .reference r⟩ rfl (by simp [Supply.WellPlaced])⟩

theorem resolveForAssignment (hname : ρ.name name) :
    Builds ρ N (resolveForAssignment name) c E fun l => [.reference l] :=
  reference (.assigned name) hname fun _ => ⟨_, rfl, rfl⟩

theorem resolveToRead (hname : ρ.name name) (hread : N name) :
    Builds ρ N (Lower.resolveForAssignment name) c E usable :=
  readable (.assigned name) hname (fun _ => .inr (.inr hread)) fun _ => ⟨_, rfl, rfl⟩

theorem resolveFrameGlobal (name : String) :
    Builds ρ N (resolveFrameGlobal name) c E usable :=
  readable (.frameGlobal name) trivial (fun _ => .inr (.inl ⟨name, rfl⟩)) fun _ => ⟨_, rfl, rfl⟩

theorem ownLocal (hname : .own name ∈ E) :
    Builds ρ N (ownLocal name) c E fun l => [.reference l] :=
  reference (.own name) hname fun _ => ⟨_, rfl, rfl⟩

theorem ownToRead (hname : .own name ∈ E) (hread : N name) :
    Builds ρ N (Lower.ownLocal name) c E usable :=
  readable (.own name) hname (fun _ => .inr (.inr hread)) fun _ => ⟨_, rfl, rfl⟩

theorem addTemp (hhint : hint ∈ plainHints) : Builds ρ N (addTemp hint) c E usable :=
  readable (.temp hint) hhint (fun _ => .inl (isHidden_hiddenName hint _)) fun _ => ⟨_, rfl, rfl⟩

theorem resolve? (hname : ρ.name name) (hread : N name) :
    Builds ρ N (resolve? name) c E fun found => found.toList.flatMap usable := by
  intro s
  show Built ρ N c E _ s (.ok (s.scopes.answer c.scope (.known name)).1
      { s with scopes := (s.scopes.answer c.scope (.known name)).2 })
  cases hl : (s.scopes.answer c.scope (.known name)).1 with
  | none =>
    rw [Scopes.answer_eq_none hl]
    exact ⟨prefix_rfl, fun _ => .supplied (.of_subset (by simp))⟩
  | some l =>
    exact ⟨prefix_rfl, fun _ => .asked (.usable (.known name) hname hl (.inr (.inr hread)))
      ⟨_, .reference (.known name)⟩ rfl (by simp [Supply.WellPlaced])⟩

/-! ## Bodies and loops -/

/-- The part puts its answer together once the names have been declared in its scope. -/
def After (ρ : Policy) (names : List String) (m : Lower α) (c : Context)
    (pieces : α → List Supply) : Prop :=
  ∀ s, Built ρ (fun _ => True) c (names.map .own) pieces (s.declareAll c.scope names) (m c s)

theorem after (h : Builds ρ (fun _ => True) m c [] pieces) : After ρ [] m c pieces :=
  h

theorem built {code : Lower Code} {kind : BodyKind} {arity : Arity} {span : Span}
    {name : Context → String} {inner : ScopeId → Context → Context}
    {f : BodyId → Option BreakId → α} (names : List String)
    (hm : m = inBody kind arity span name inner f code) (hinner : Inner kind inner c)
    (hnames : ∀ n ∈ names, ρ.name n)
    (hstems : ∀ {scope s s' result}, code (inner scope c) s = .ok result s' →
      Stems ρ scope result s s' kind arity span names)
    (hmeets : ∀ scope, Meets code (inner scope c) Assembled)
    (h : ∀ scope, After ρ names code (inner scope c) fun code => [.code code])
    (hf : ∀ id b, Supplies (.code (kind.use (name c) id b) :: E) (pieces (f id b))) :
    Builds ρ N m c E pieces := by
  subst hm
  intro s
  have hscope := hinner.scope (s.scopes.openScope c.scope kind).1
  have hcode := h (s.scopes.openScope c.scope kind).1 (s.enter c.scope kind)
  have hlowers := hmeets (s.scopes.openScope c.scope kind).1 (s.enter c.scope kind)
  unfold inBody
  rw [reading_run]
  dsimp only
  cases hs : code (inner (s.scopes.openScope c.scope kind).1 c) (s.enter c.scope kind) with
  | error d s' =>
    rw [hs] at hcode
    exact hcode
  | ok result s' =>
    rw [hs] at hcode hlowers
    obtain ⟨ms, hms, hassembled⟩ := hlowers
    refine ⟨hcode.1, fun hclean => ?_⟩
    have hbody := Lowers.body (name c) arity span hscope (hinner.isMethod _) hms hassembled
    rw [hscope] at hbody
    exact .step (.body (name c) arity span hscope (hinner.ofKind _) (hinner.inLoop _) hnames
      (hscope.symm ▸ hstems hs) ⟨_, hms⟩ ⟨_, hbody⟩ (hcode.2 hclean)) (.supplied (hf _ _))

/-- The condition and the statements of a loop. A mistake in the condition is kept for after the
statements. -/
theorem loop {m : Lower Code} {condition : Lower Code} {body : Lower (List Code)}
    {bodyFirst negated : Bool} (hm : m = inLoop condition body fun id condition body =>
      .loop (if negated then .not condition else condition) (.join body) bodyFirst id)
    (htotal : ∀ c s, ∃ codes s', body c s = .ok codes s')
    (hcondition : Builds ρ N condition { c with inLoop := true } [] fun code => [.code code])
    (hbody : Builds ρ N body { c with inLoop := true } [] fun codes => codes.map .code) :
    Builds ρ N m c E fun code => [.code code] := by
  subst hm
  intro s
  have hc := hcondition (s.enterLoop c.scope)
  unfold inLoop
  rw [reading_run]
  dsimp only
  cases hs : condition { c with inLoop := true } (s.enterLoop c.scope) with
  | error d s₂ =>
    rw [hs] at hc
    obtain ⟨codes, s₃, hs₃⟩ := htotal { c with inLoop := true } s₂
    have hb := hbody s₂
    rw [hs₃] at hb
    simp only [hs₃]
    exact List.IsPrefix.trans hc hb.1
  | ok code s₂ =>
    rw [hs] at hc
    obtain ⟨codes, s₃, hs₃⟩ := htotal { c with inLoop := true } s₂
    have hb := hbody s₂
    rw [hs₃] at hb
    simp only [hs₃]
    refine ⟨hc.1.trans hb.1, fun hclean => .loop bodyFirst ?_⟩
    have hclean : s₃.mistakes = [] := hclean
    have hclean₂ : s₂.mistakes = [] := prefix_nil.mp (hclean ▸ hb.1)
    refine .step ((hc.2 hclean₂).append (hb.2 hclean)) (.supplied (.append (G := [_]) ?_ ?_))
    · split
      · exact .node rfl fun part hpart => .code_of_mem (by simp_all [Code.children])
      · exact .code_of_mem (by simp)
    · exact .of_subset fun x hx => by simp [hx]

end Builds

end Lower

end BlockLang
