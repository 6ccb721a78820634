import MiddleEnd.Proofs.BuilderSteps
import MiddleEnd.Proofs.EdgeEdits

/-!
# Grafting a block

A function gets a new block and instructions in it, and instructions that were there before are
changed in place. What there is afterwards is said at once for all the edits in between: they
compose, so that an edit that is made in many steps is looked at from its start and its end only.
-/

namespace MiddleEnd

namespace Inst

def addEdge (v : ValueId) (p : BlockId) : Inst → Inst
  | phi op args preds => phi op (args ++ [v]) (preds ++ [p])
  | i => i

variable {i : Inst} {v : ValueId} {p : BlockId}

@[simp]
theorem op_addEdge (v : ValueId) (p : BlockId) (i : Inst) : (i.addEdge v p).op = i.op := by
  cases i <;> rfl

theorem edges_addEdge (h : i.Even) (hphi : ∃ op args preds, i = phi op args preds) :
    (i.addEdge v p).edges = i.edges ++ [(v, p)] := by
  obtain ⟨op, args, preds, rfl⟩ := hphi
  exact List.zip_append (h op args preds rfl)

theorem blocks_addEdge (hphi : ∃ op args preds, i = phi op args preds) :
    (i.addEdge v p).blocks = i.blocks ++ [p] := by
  obtain ⟨op, args, preds, rfl⟩ := hphi
  rfl

theorem keepEdges_phi {keep : BlockId → Bool} (hphi : ∃ op args preds, i = phi op args preds) :
    ∃ op args preds, i.keepEdges keep = phi op args preds := by
  obtain ⟨op, args, preds, rfl⟩ := hphi
  exact ⟨_, _, _, rfl⟩

theorem keepEdges_congr {keep keep' : BlockId → Bool} (h : ∀ e ∈ i.edges, keep e.2 = keep' e.2) :
    i.keepEdges keep = i.keepEdges keep' := by
  cases i with
  | phi op args preds =>
    have hkept : (args.zip preds).filter (keep ·.2) = (args.zip preds).filter (keep' ·.2) :=
      List.filter_congr fun e he => h e he
    simp only [keepEdges, hkept]
  | _ => rfl

end Inst

theorem DataFlow.removeEdges_ok {g : DataFlow} (hg : g.Exact) {i : InstId} {inst : Inst}
    (hi : g.inst? i = some inst) (hphi : ∃ op args preds, inst = .phi op args preds)
    (es : List (ValueId × BlockId)) :
    ∃ g', es.foldlM (fun g e => do return (← g.removeIncoming i e.2).2) g = .ok g' ∧ g'.Exact ∧
      Rewired g g' fun j jnst => if j = i then inst.keepEdges fun p => decide
        (p ∉ es.map (·.2)) else jnst := by
  induction es generalizing g inst with
  | nil =>
    refine ⟨g, rfl, hg, (Rewired.refl g).congr fun j jnst hj => ?_⟩
    by_cases hji : j = i
    · subst hji
      rw [hi] at hj
      cases hj
      rw [if_pos rfl, Inst.keepEdges_eq_self (hg.even hi) fun p _ => by simp]
    · rw [if_neg hji]
  | cons e es ih =>
    obtain ⟨n, g₁, hg₁, hexact, hR₁⟩ := removeIncoming_ok hg e.2 hi hphi
    have hi₁ : g₁.inst? i = some (inst.keepEdges (· ≠ e.2)) := by
      rw [hR₁.inst?, hi, Option.map_some, if_pos rfl]
    obtain ⟨g₂, hg₂, hexact₂, hR₂⟩ := ih hexact hi₁ (Inst.keepEdges_phi hphi)
    refine ⟨g₂, ?_, hexact₂, (hR₁.trans hR₂).congr fun j jnst hj => ?_⟩
    · rw [List.foldlM_cons, hg₁]
      exact hg₂
    · by_cases hji : j = i
      · rw [if_pos hji, if_pos hji, Inst.keepEdges_keepEdges]
        refine Inst.keepEdges_congr fun e' _ => ?_
        simp only [List.map_cons, List.mem_cons, not_or, Bool.decide_and]
      · rw [if_neg hji, if_neg hji, if_neg hji]

namespace Func

/-- The second function has one more block, which does not come first, and instructions there; those
that were there before were sent through a function. -/
structure Grafted (f f' : Func) (graft : BlockId) (body : List InstId) (ρ : InstId → Inst → Inst) :
    Prop where
  coherent : f'.Coherent
  sig : f'.sig = f.sig
  params : f'.flow.params = f.flow.params
  imports : f'.flow.imports = f.flow.imports
  first : ∀ {b}, f.entry = .ok b → f'.entry = .ok b
  mem_blocks : ∀ {b}, b ∈ f'.blocks ↔ b ∈ f.blocks ∨ b = graft
  fresh : graft ∉ f.blocks
  here : f'.insts graft = .ok body
  others : ∀ {b}, b ≠ graft → f'.insts b = f.insts b
  inst? : ∀ {i inst}, f.flow.inst? i = some inst → f'.flow.inst? i = some (ρ i inst)
  new : ∀ k ∈ body, f.flow.inst? k = none
  result? : ∀ {i inst}, f.flow.inst? i = some inst → f'.flow.result? i = f.flow.result? i
  origin? : ∀ {v o}, f.flow.origin? v = some o → f'.flow.origin? v = some o

/-- What was added to the first function by the second one the third one has as well. -/
structure Extends (f c c' : Func) : Prop where
  inst? : ∀ {k knst}, f.flow.inst? k = none → c.flow.inst? k = some knst →
    c'.flow.inst? k = some knst
  result? : ∀ {k knst}, c.flow.inst? k = some knst → c'.flow.result? k = c.flow.result? k
  origin? : ∀ {v o}, c.flow.origin? v = some o → c'.flow.origin? v = some o

variable {f c c' : Func} {graft : BlockId} {body : List InstId} {ρ : InstId → Inst → Inst}

theorem Grafted.insert (h : f.Grafted c graft body ρ) (hc : c'.Coherent) {k : InstId}
    {inst : Inst} {ty : Ty} {v? : Option ValueId}
    (hins : c.Inserted c' k inst ty v? graft body []) :
    f.Grafted c' graft (body ++ [k]) ρ ∧ f.Extends c c' := by
  have hne : ∀ {i jnst}, c.flow.inst? i = some jnst → i ≠ k := by
    rintro i jnst hi rfl
    rw [hins.grown.fresh] at hi
    cases hi
  have hinst : ∀ {i jnst}, c.flow.inst? i = some jnst → c'.flow.inst? i = some jnst := fun hi => by
    rw [hins.grown.inst?, if_neg (hne hi), hi]
  have hresult : ∀ {i jnst}, c.flow.inst? i = some jnst →
      c'.flow.result? i = c.flow.result? i := fun hi => by
    rw [hins.grown.result?, if_neg (hne hi)]
  have horigin : ∀ {v o}, c.flow.origin? v = some o →
      c'.flow.origin? v = some o := fun {v o} hv => by
    rw [hins.grown.origin?, if_neg, hv]
    intro he
    rw [hins.grown.value_fresh v he] at hv
    cases hv
  have hnew : f.flow.inst? k = none := by
    cases hk : f.flow.inst? k with
    | none => rfl
    | some jnst => exact absurd rfl (hne (h.inst? hk))
  refine ⟨⟨hc, hins.alike.sig.trans h.sig, hins.grown.params.trans h.params,
    hins.grown.imports.trans h.imports,
    fun he => hins.alike.starts (h.first he), ?_, h.fresh, ?_,
    fun hb => (hins.others hb).trans (h.others hb),
    fun hi => hinst (h.inst? hi), ?_, fun hi => (hresult (h.inst? hi)).trans (h.result? hi),
    fun hv => horigin (h.origin? hv)⟩, fun _ hk => hinst hk, hresult, horigin⟩
  · intro b
    rw [show c'.blocks = c.blocks from hins.alike.blocks]
    exact h.mem_blocks
  · rw [hins.here]
  · intro i hi
    rcases List.mem_append.1 hi with hi | hi
    · exact h.new i hi
    · rw [List.mem_singleton.1 hi]
      exact hnew

theorem Grafted.rewire (h : f.Grafted c graft body ρ) {g : DataFlow} (hg : g.Exact)
    {σ : InstId → Inst → Inst} (hR : DataFlow.Rewired { c.flow with epoch := g.epoch } g σ)
    {i : InstId} {inst : Inst} (hi : f.flow.inst? i = some inst)
    (hσ : ∀ {j jnst}, j ≠ i → σ j jnst = jnst) :
    f.Grafted { c with flow := g } graft body
      (fun j jnst => if j = i then σ i (ρ i inst) else ρ j jnst) ∧ f.Extends c
        { c with flow := g } := by
  have hinst : ∀ {j jnst}, c.flow.inst? j = some jnst →
      g.inst? j = some (σ j jnst) := fun {j jnst} hj => by
    rw [hR.inst?]
    show (c.flow.inst? j).map (σ j) = _
    rw [hj, Option.map_some]
  have horigin : ∀ {v o}, c.flow.origin? v = some o → g.origin? v = some o :=
    fun hv => hR.origin? hv
  have hcoh : ({ c with flow := { c.flow with epoch := g.epoch } } : Func).Coherent :=
    ⟨h.coherent.flow.withEpoch _, h.coherent.layout, h.coherent.placed, h.coherent.known⟩
  refine ⟨⟨hcoh.rewire hg hR, h.sig, hR.params.trans h.params, hR.imports.trans h.imports, h.first,
    h.mem_blocks, h.fresh, h.here, h.others, fun {j jnst} hj => ?_, h.new,
    fun {j jnst} hj => (hR.result? j).trans (h.result? hj),
    fun hv => horigin (h.origin? hv)⟩, fun {k knst} hk hk' => ?_,
    fun {k knst} _ => hR.result? k, horigin⟩
  · have hj' : g.inst? j = some (σ j (ρ j jnst)) := hinst (h.inst? hj)
    by_cases hji : j = i
    · subst hji
      rw [hi] at hj
      cases hj
      rw [if_pos rfl]
      exact hj'
    · rw [hσ hji] at hj'
      rw [if_neg hji]
      exact hj'
  · have hki : k ≠ i := by
      rintro rfl
      rw [hi] at hk
      cases hk
    have := hinst hk'
    rwa [hσ hki] at this

end Func

namespace Builder

variable {b : Builder}

theorem append_ok (hb : b.func.Coherent) {c : BlockId} {xs : List InstId}
    (hxs : b.func.insts c = .ok xs) (inst : Inst) (ty : Ty)
    (hargs : ∀ v ∈ inst.args, ∃ o, b.flow.origin? v = some o) (heven : inst.Even) :
    ∃ i b' v?, (b.goTo (.append c)).insert inst ty = .ok (i, b') ∧ b'.func.Coherent ∧
      b.func.Inserted b'.func i inst ty v? c xs [] := by
  have hhere : (b.goTo (.append c)).func.insts c = .ok (xs ++ []) := by
    rw [List.append_nil]
    exact hxs
  obtain ⟨i, b', v?, hins, hcoh, hnew, -⟩ :=
    insert_ok (b := b.goTo (.append c)) hb ty hargs heven hhere (.append c xs)
  exact ⟨i, b', v?, hins, hcoh, hnew⟩

theorem fresh_block (hb : b.func.Coherent) (info : BlockInfo) :
    (b.func.blockTable.add info).1 ∉ b.func.layout.blocks := by
  rw [hb.known]
  intro hk
  obtain ⟨a, ha⟩ := Table.contains_iff.1 hk
  have := Table.get?_lt_bound ha
  rw [Table.add_fst, Key.index_ofIndex] at this
  exact Nat.lt_irrefl _ this

theorem grafted_of_widened {b' : Builder} {graft : BlockId} (hcoh : b'.func.Coherent)
    (hwide : b.func.layout.Widened b'.func.layout graft) (hflow : b'.flow = b.flow)
    (hsig : b'.func.sig = b.func.sig) :
    b.func.Grafted b'.func graft [] fun _ inst => inst := by
  have hflow : b'.func.flow = b.func.flow := hflow
  refine ⟨hcoh, hsig, by rw [hflow], by rw [hflow], fun {c} he => ?_, hwide.blocks, hwide.fresh, ?_,
    fun {c} hc => ?_,
    fun hi => by rw [hflow]; exact hi, by simp, fun _ => by rw [hflow],
    fun hv => by rw [hflow]; exact hv⟩
  · exact ofOption_eq_ok.2 (hwide.first (ofOption_eq_ok.1 he))
  · show b'.func.layout.insts graft = _
    rw [hwide.insts, if_pos rfl]
  · show b'.func.layout.insts c = _
    rw [hwide.insts, if_neg hc]
    rfl

theorem addBlock_grafts (hb : b.func.Coherent) (name? : Option String) :
    ∃ graft b', b.addBlock name? = .ok (graft, b') ∧ b.func.Grafted b'.func graft
      [] fun _ inst => inst := by
  have hfresh := fresh_block hb { name? }
  obtain ⟨l, hl⟩ : ∃ l, b.func.layout.appendBlock (b.func.blockTable.add { name? }).1 = .ok l :=
    ⟨_, if_neg (by rwa [Layout.hasBlock_iff])⟩
  obtain ⟨⟨graft, b'⟩, hr⟩ : ∃ r, b.addBlock name? = .ok r := ⟨_, by
    unfold addBlock
    dsimp only
    rw [hl, ok_bind]⟩
  obtain ⟨hcoh, hwide, hflow, -⟩ := addBlock_of_ok hb hr
  refine ⟨graft, b', hr, grafted_of_widened hcoh hwide hflow ?_⟩
  unfold addBlock at hr
  obtain ⟨l, -, he⟩ := bind_eq_ok.1 hr
  cases he
  rfl

theorem addBlockAfter_grafts (hb : b.func.Coherent) (name : String) {after : BlockId}
    (ha : after ∈ b.func.blocks) :
    ∃ graft b', b.addBlockAfter name after = .ok (graft, b') ∧ b.func.Grafted b'.func graft
      [] fun _ inst => inst := by
  have hfresh := fresh_block hb { name? := some name }
  obtain ⟨xs, hxs⟩ := Layout.mem_blocks_iff.1 ha
  obtain ⟨row, hrow, -⟩ := Layout.insts_eq_ok.1 hxs
  obtain ⟨l, hl⟩ : ∃ l, b.func.layout.insertBlockAfter
      (b.func.blockTable.add { name? := some name }).1 after = .ok l := by
    unfold Layout.insertBlockAfter Layout.row
    rw [hrow, ofOption_some, ok_bind, if_neg (by rwa [Layout.hasBlock_iff])]
    exact ⟨_, rfl⟩
  obtain ⟨⟨graft, b'⟩, hr⟩ : ∃ r, b.addBlockAfter name after = .ok r := ⟨_, by
    unfold addBlockAfter
    dsimp only
    rw [hl, ok_bind]⟩
  obtain ⟨hcoh, hwide, hflow, -⟩ := addBlockAfter_of_ok hb hr
  refine ⟨graft, b', hr, grafted_of_widened hcoh hwide hflow ?_⟩
  unfold addBlockAfter at hr
  obtain ⟨l, -, he⟩ := bind_eq_ok.1 hr
  cases he
  rfl

end Builder

end MiddleEnd
