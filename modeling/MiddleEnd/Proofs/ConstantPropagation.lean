import MiddleEnd.Proofs.FlowSimplification
import MiddleEnd.Proofs.KnownResults
import MiddleEnd.Proofs.ModuleFacts
import MiddleEnd.Transform.ConstantPropagation

/-!
# Constant propagation in modules

What is known about the functions of a module is put to use in one function after the other. A
constant takes the place of a result if it is of the same type, so operands keep their types, and
constants are there wherever they are needed; a branch that becomes a jump only takes an edge away.
So every function still verifies, and has kept what calls to it rely on: its name, its signature and
its parameters. Types agree across functions if the signatures that calls are made by are those of
the functions they lead to.
-/

namespace MiddleEnd

namespace Func

/-- What propagation keeps of a function. -/
structure Reworked (f f' : Func) : Prop where
  name : f'.name = f.name
  sig : f'.sig = f.sig
  blocks : f'.blocks = f.blocks
  params : f'.params = f.params
  imports : f'.flow.imports = f.flow.imports
  param : ∀ {v ty p}, f.flow.origin? v = some (.param ty p) → f'.flow.origin? v = some (.param ty p)
  /-- No result is new. -/
  result : ∀ {v ty i}, f'.flow.origin? v = some (.result ty i) →
    f.flow.origin? v = some (.result ty i)
  /-- No call is new, but its arguments may be. -/
  call : ∀ {i op target vs}, f'.flow.inst? i = some (.call op target vs) →
    ∃ vs', f.flow.inst? i = some (.call op target vs')

variable {f f' f'' : Func} {entry : BlockId} {g : DataFlow} {ρ : InstId → Inst → Inst}
  {D : List InstId}

theorem Reworked.refl (f : Func) : f.Reworked f :=
  ⟨rfl, rfl, rfl, rfl, rfl, id, id, fun h => ⟨_, h⟩⟩

theorem Reworked.trans (h : f.Reworked f') (h' : f'.Reworked f'') : f.Reworked f'' where
  name := h'.name.trans h.name
  sig := h'.sig.trans h.sig
  blocks := h'.blocks.trans h.blocks
  params := h'.params.trans h.params
  imports := h'.imports.trans h.imports
  param ho := h'.param (h.param ho)
  result ho := h.result (h'.result ho)
  call hi := by
    obtain ⟨vs', hi'⟩ := h'.call hi
    exact h.call hi'

theorem Reworked.of_rewire (hR : DataFlow.Rewired f.flow g ρ) {R : ValueId → ValueId → Prop}
    (hM : ∀ {i inst}, f.flow.inst? i = some inst → Inst.Matches R inst (ρ i inst)) :
    f.Reworked { f with flow := g } where
  name := rfl
  sig := rfl
  blocks := rfl
  params := hR.params
  imports := hR.imports
  param := hR.origin?
  result := hR.origin_result_iff.1
  call hi := by
    obtain ⟨inst, hinst, he⟩ := hR.exists_inst hi
    have hm := hM hinst
    rw [← he] at hm
    cases hm
    exact ⟨_, hinst⟩

theorem Reworked.of_thin (hc : f.Coherent) (h : f.Thinned f' D) : f.Reworked f' where
  name := h.alike.name
  sig := h.alike.sig
  blocks := h.alike.blocks
  params := h.params
  imports := h.imports
  param {v ty p} ho := by
    apply h.origin? ho
    intro i _ hr
    obtain ⟨ty', ho', -⟩ := hc.flow.result_origin hr
    cases ho.symm.trans ho'
  result ho := by
    rcases h.added ho with ho | ho | ho
    · exact ho
    · cases ho
    · cases ho
  call hi := ⟨_, (h.inst_of hi).2⟩

theorem Reworked.of_prune {σ : InstId → InstId} {gate : BlockId → BlockId → Bool}
    {way : Inst → BlockId → Prop} (ht : f.Tidy entry)
    (h : f.Pruned f' entry (fun _ => True) σ id gate way) (hname : f'.name = f.name)
    (hblocks : f'.blocks = f.blocks) : f.Reworked f' where
  name := hname
  sig := h.sig
  blocks := hblocks
  params := h.params
  imports := h.imports
  param ho := by
    rcases h.value ho with ⟨-, ho'⟩ | ⟨-, -, -, -, -, -, -, hn, -⟩
    · exact ho'
    · exact absurd trivial hn
  result ho := by
    rcases h.added ho with ho | ho | ho
    · exact ho
    · cases ho
    · cases ho
  call {i' op target vs} hi' := by
    obtain ⟨b, xs, i, inst, -, -, -, rfl, hinst, hre⟩ := h.inst_of ht.regular.coherent hi'
    generalize hcall : Inst.call op target vs = inst' at hre
    cases hre with
    | always _ _ _ => cases hcall
    | same =>
      cases inst with
      | call op' target' vs' =>
        cases hcall
        have hop : op = .call := of_decide_eq_true (ht.regular.forms hinst)
        subst hop
        rw [h.still (DataFlow.isTerminator_of_inst hinst)]
        exact ⟨vs', hinst⟩
      | _ => cases hcall

theorem Reworked.result? (h : f.Reworked f') (hc : f.Coherent) (hc' : f'.Coherent)
    {i : InstId} {r : ValueId} (hr : f'.flow.result? i = some r) :
    f.flow.result? i = some r ∧ f'.tyOf r = f.tyOf r := by
  obtain ⟨ty, ho', -⟩ := hc'.flow.result_origin hr
  have ho := h.result ho'
  exact ⟨hc.flow.origin_result ho, (Func.tyOf_eq ho').trans (Func.tyOf_eq ho).symm⟩

theorem Tidy.workable (ht : f.Tidy entry) (hwide : ∀ i, f.yieldTy i ≠ .int 0) :
    Propagation.Workable f entry :=
  ⟨ht.regular.coherent, ht.regular.starts, ht.regular.shape, ht.valid.types, hwide, ht.phis⟩

theorem Reworked.searchable (h : f.Reworked f') {m : Module} (hs : f.SearchableIn m)
    (ht : f'.Tidy entry) :
    f'.SearchableIn m := by
  obtain ⟨start, hw⟩ := hs.workable
  have hc := hw.coherent
  have hc' := ht.regular.coherent
  refine ⟨⟨entry, ht.workable ?_⟩, ?_, ?_, ?_⟩
  · intro i hy
    cases hr : f'.flow.result? i with
    | none =>
      rw [Func.yieldTy, hr] at hy
      cases hy
    | some r =>
      obtain ⟨hr', hty⟩ := h.result? hc hc' hr
      apply hw.wide i
      rw [Func.yieldTy, hr']
      rw [Func.yieldTy, hr] at hy
      exact hty.symm.trans hy
  · rw [h.params, h.sig, ← hs.params]
    apply List.map_congr_left
    intro v hv
    obtain ⟨ty, p, ho⟩ := hc.flow.param_origin hv
    rw [Func.tyOf_eq ho, Func.tyOf_eq (h.param ho)]
  · intro target imp id g himp
    rw [h.imports] at himp
    exact hs.imports himp
  · intro i op target vs r imp hi hr himp
    rw [h.imports] at himp
    obtain ⟨vs', hi'⟩ := h.call hi
    obtain ⟨ty, ho', -⟩ := hc'.flow.result_origin hr
    have ho := h.result ho'
    rw [DataFlow.ty_of_origin ho', ← DataFlow.ty_of_origin ho]
    exact hs.calls hi' (hc.flow.origin_result ho) himp

end Func

namespace ConstantPropagation

/-- What is left of a function after some of its edits. -/
structure Underway (f : Func) (entry : BlockId) (b : Builder) : Prop where
  tidy : b.func.Tidy entry
  reworked : f.Reworked b.func

variable {f : Func} {entry : BlockId} {facts : Facts} {b : Builder}

theorem known_of_facts (hb : Underway f entry b) {i : InstId} {r : ValueId} {w : Word}
    (hr : b.flow.result? i = some r) (hw : facts.values.get? r = some (.const w)) :
    facts.known f r = .const w := by
  obtain ⟨ty, ho', -⟩ := hb.tidy.regular.coherent.flow.result_origin hr
  unfold Facts.known
  rw [hb.reworked.result ho']
  simp only [hw, Option.getD_some]

theorem ty_of_facts (hb : Underway f entry b) (hf : facts.Typed f) {i : InstId}
    {r : ValueId} {w : Word} (hr : b.flow.result? i = some r)
    (hw : facts.values.get? r = some (.const w)) : b.func.tyOf r = w.ty := by
  obtain ⟨ty, ho', -⟩ := hb.tidy.regular.coherent.flow.result_origin hr
  rw [← hf (known_of_facts hb hr hw), Func.tyOf_eq (hb.reworked.result ho'), Func.tyOf_eq ho']

theorem replaceUse_underway (hb : Underway f entry b) {i : InstId} {r v : ValueId} {w : Word}
    (hr : b.flow.result? i = some r) (hv : b.flow.origin? v = some (.const w))
    (hty : b.func.tyOf r = w.ty) :
    ∃ g, b.replaceUse r v = .ok (b.withFlow g) ∧ Underway f entry (b.withFlow g) ∧
      DataFlow.Rewired b.flow g fun _ inst => inst.mapArgs (DataFlow.swap r v) := by
  obtain ⟨ty, ho, -⟩ := hb.tidy.regular.coherent.flow.result_origin hr
  obtain ⟨g, hg, hcoh, hR⟩ := Builder.replaceUse_ok hb.tidy.regular.coherent ho hv
  have hM : ∀ {j jnst}, b.func.flow.inst? j = some jnst →
      Inst.Matches (b.func.Settles g) jnst (jnst.mapArgs (DataFlow.swap r v)) := by
    intro j jnst _
    apply Inst.Matches.of_mapArgs
    intro u _
    by_cases hu : u = r
    · rw [DataFlow.swap, if_pos hu, hu]
      exact .inr ⟨w, hR.origin? hv, hty⟩
    · rw [DataFlow.swap_of_ne hu]
      exact .inl rfl
  exact ⟨g, hg, ⟨hb.tidy.rewire hcoh.flow hR hM, hb.reworked.trans (.of_rewire hR hM)⟩, hR⟩

/-- What is left of a function while results give way to constants. -/
def Filling (facts : Facts) (f : Func) (entry : BlockId) (b : Builder) : Prop :=
  Underway f entry b ∧ ∃ D τ, f.Filled facts b.func D τ

theorem replaceResult_yields (h : Filling facts f entry b) (hf : facts.Typed f) (modified : Bool)
    (i : InstId) :
    (replaceResult facts modified b i).Yields fun r => Filling facts f entry r.2 := by
  obtain ⟨hb, D, τ, hfill⟩ := h
  have hsame : Filling facts f entry b := ⟨hb, D, τ, hfill⟩
  unfold replaceResult
  split
  · rename_i r hr
    split
    · rename_i w hw
      have hc := hb.tidy.regular.coherent
      obtain ⟨ty, ho, -⟩ := hc.flow.result_origin hr
      obtain ⟨v, g, hg, hv, hexact, hR⟩ := DataFlow.shared_ok hc.flow (o := .const w) (.inl rfl)
      have hM : ∀ {j jnst}, b.func.flow.inst? j = some jnst →
          Inst.Matches (b.func.Settles g) jnst jnst :=
        fun _ => .of_args fun _ _ => .inl rfl
      have hb₁ : Underway f entry (b.withFlow g) :=
        ⟨hb.tidy.rewire hexact hR hM, hb.reworked.trans (.of_rewire hR hM)⟩
      have hr₁ : (b.withFlow g).flow.result? i = some r := (hR.result? i).trans hr
      obtain ⟨inst, hi⟩ := DataFlow.hasInst_of_result hr₁
      obtain ⟨g₂, hg₂, hb₂, hR₂⟩ := replaceUse_underway hb₁ hr₁ hv (ty_of_facts hb₁ hf hr₁ hw)
      have hne : v ≠ r := by
        rintro rfl
        cases hv.symm.trans (hR.origin? ho)
      have hterm : inst.op.isTerminator = false :=
        (DataFlow.isTerminator_of_inst hi).symm.trans (hb₁.tidy.not_terminator hr₁)
      obtain ⟨d, hd, hcoh, -, -, hthin, hidle⟩ :=
        Builder.removeReplaced_ok hi hr₁ hne hterm hb₂.tidy.regular.coherent hR₂
      have hconst : b.flow.const w = (v, g) := hg
      have hknown := known_of_facts hb hr hw
      -- The constant is there at once, and then it takes the place of the result.
      have hfill₁ := hfill.rewire (θ := id) hR (fun _ _ =>
        (Inst.mapArgs_eq_self fun _ _ => rfl).symm) fun _ => .inl rfl
      have hfill₂ := hfill₁.swap hR₂ (hR.origin? ho) hknown (hR₂.origin? hv)
      rw [hconst]
      refine (Run.yields_log (P := fun _ => True) trivial).bind fun _ _ => ?_
      refine (Run.yields_lift ⟨_, hg₂, rfl⟩).bind ?_
      rintro _ rfl
      split
      · exact Run.yields_pure ⟨hb₂, _, _, hfill₂⟩
      · rename_i heff
        refine (Run.yields_lift ⟨d, hd, rfl⟩).bind ?_
        rintro _ rfl
        obtain ⟨jnst, hj⟩ := DataFlow.hasInst_of_result hr
        have hfill₃ := hfill₂.thin hb₂.tidy.regular.coherent hthin (hfill.inst_of hj).1
          (Bool.eq_false_iff.2 heff)
          fun _ hu => hfill₁.swap_ne hr₁ hne hu
        exact Run.yields_pure ⟨⟨hb₂.tidy.thin hthin hidle hcoh,
          hb₂.reworked.trans (.of_thin hb₂.tidy.regular.coherent hthin)⟩, _, _, hfill₃⟩
    · exact Run.yields_pure hsame
  · exact Run.yields_pure hsame

theorem onlyEdge?_ok (facts : Facts) (block : BlockId) (c : ValueId) (onTrue onFalse : BlockId) :
    ∃ r, onlyEdge? facts block (.branch .brCond c onTrue onFalse) = .ok r ∧
      (∀ {taken dropped}, r = some (taken, dropped) →
        Func.Parts (.branch .brCond c onTrue onFalse) taken (some dropped) ∧
        facts.taken block taken = true ∧
          facts.taken block dropped = false) ∧
      (r = none → facts.taken block onTrue = facts.taken block onFalse) := by
  have hblocks : ∀ d, d ∈ (Inst.branch .brCond c onTrue onFalse).blocks ↔ d = onTrue ∨
      d = onFalse := by
    intro d
    simp [Inst.blocks]
  show ∃ r, (if onTrue = onFalse then Except.ok none else _) = .ok r ∧ _
  by_cases hsame : onTrue = onFalse
  · refine ⟨none, if_pos hsame, fun h => ?_, fun _ => by rw [hsame]⟩
    cases h
  rw [if_neg hsame]
  split
  · rename_i htrue hfalse
    refine ⟨_, rfl, fun h => ?_, fun h => by cases h⟩
    cases h
    refine ⟨⟨fun d => ?_, fun h => hsame (Option.some.inj h).symm⟩, htrue, hfalse⟩
    rw [hblocks, Option.some.injEq, eq_comm (b := d)]
  · rename_i htrue hfalse
    refine ⟨_, rfl, fun h => ?_, fun h => by cases h⟩
    cases h
    refine ⟨⟨fun d => ?_, fun h => hsame (Option.some.inj h)⟩, hfalse, htrue⟩
    rw [hblocks, or_comm, Option.some.injEq, eq_comm (b := d)]
  · rename_i hne₁ hne₂
    refine ⟨none, rfl, fun h => ?_, fun _ => ?_⟩
    · cases h
    cases htrue : facts.taken block onTrue <;> cases hfalse : facts.taken block onFalse
    · rfl
    · exact absurd hfalse (hne₂ htrue)
    · exact absurd hfalse (hne₁ htrue)
    · rfl

/-- The edge stays when branches are folded: it is taken, or none is that leaves the block. -/
def Stays (facts : Facts) (f : Func) (p c : BlockId) : Prop :=
  facts.taken p c = true ∨ ∀ c', f.Leads p c' → facts.taken p c' = false

/-- What is left of a function after the branches at the end of some blocks were folded. -/
structure Folding (facts : Facts) (f f₁ : Func) (entry : BlockId) (done : List BlockId)
    (b : Builder) : Prop where
  underway : Underway f entry b
  loosened : f₁.Loosened b.func entry
  leads : ∀ p c, b.func.Leads p c ↔ f₁.Leads p c ∧ (p ∈ done → Stays facts f₁ p c)

theorem Folding.step {f₁ : Func} {done : List BlockId} {b' : Builder} {block : BlockId}
    (h : Folding facts f f₁ entry done b) (hb : Underway f entry b')
    (hloose : f₁.Loosened b'.func entry)
    (hothers : ∀ p c, p ≠ block → (b'.func.Leads p c ↔ b.func.Leads p c))
    (hblock : ∀ c, b'.func.Leads block c ↔ f₁.Leads block c ∧ Stays facts f₁ block c) :
    Folding facts f f₁ entry (done ++ [block]) b' where
  underway := hb
  loosened := hloose
  leads p c := by
    by_cases hp : p = block
    · rw [hp, hblock]
      simp
    · rw [hothers p c hp, h.leads]
      simp [hp]

theorem Folding.untouched {f₁ : Func} {done : List BlockId} {block : BlockId}
    (h : Folding facts f f₁ entry done b) (hnew : block ∉ done) (c : BlockId) :
    b.func.Leads block c ↔ f₁.Leads block c := by
  simp [h.leads, hnew]

theorem Folding.skip {f₁ : Func} {done : List BlockId} {block : BlockId}
    (h : Folding facts f f₁ entry done b) (hnew : block ∉ done)
    (hall : ∀ c c', f₁.Leads block c → f₁.Leads block c' →
      facts.taken block c = facts.taken block c') :
    Folding facts f f₁ entry (done ++ [block]) b := by
  refine h.step h.underway h.loosened (fun _ _ _ => Iff.rfl) fun c => ?_
  rw [h.untouched hnew]
  refine ⟨fun hl => ⟨hl, ?_⟩, And.left⟩
  cases ht : facts.taken block c with
  | true => exact .inl ht
  | false => exact .inr fun c' hl' => (hall c' c hl' hl).trans ht

theorem Folding.fold {f₁ : Func} {done : List BlockId} {b' : Builder}
    {block taken dropped : BlockId} {inst : Inst} (h : Folding facts f f₁ entry done b)
    (hf₁ : f₁.Regular entry) (hnew : block ∉ done)
    (hfolded : b.Folded b' entry block (some dropped) fun _ _ => True)
    (hparts : Func.Parts inst taken (some dropped))
    (hleads : ∀ c, f₁.Leads block c ↔ c ∈ inst.blocks) (htaken : facts.taken block taken = true)
    (hdropped : facts.taken block dropped = false) :
    Folding facts f f₁ entry (done ++ [block]) b' := by
  have ht := h.underway.tidy
  obtain ⟨σ, hpruned⟩ := hfolded.pruned
  have hb' : Underway f entry b' :=
    ⟨hpruned.tidy ht, h.underway.reworked.trans (.of_prune ht hpruned hfolded.name hfolded.blocks)⟩
  refine h.step hb' (h.loosened.trans hf₁.toFormed ⟨σ, _, hpruned⟩) (fun p d hp => ?_) fun d => ?_
  · rw [hfolded.leads ht.toFormed]
    simp [hp]
  · rw [hfolded.leads ht.toFormed, h.untouched hnew]
    refine and_congr_right fun hl => ?_
    rcases (hparts.blocks d).1 ((hleads d).1 hl) with rfl | hd
    · exact iff_of_true (fun hd => hparts.ne hd.2) (.inl htaken)
    · cases hd
      refine iff_of_false (fun hd => hd ⟨rfl, rfl⟩) ?_
      rintro (hd | hd)
      · rw [hdropped] at hd
        cases hd
      · rw [hd taken ((hleads taken).2 ((hparts.blocks taken).2 (.inl rfl)))] at htaken
        cases htaken

theorem foldBranch_yields {f₁ : Func} {done : List BlockId} (h : Folding facts f f₁ entry done b)
    (hf₁ : f₁.Regular entry) (modified : Bool) {block : BlockId} (hblock : block ∈ b.func.blocks)
    (hnew : block ∉ done) :
    (foldBranch facts modified b block).Yields fun r => Folding facts f f₁ entry
      (done ++ [block]) r.2 := by
  have ht := h.underway.tidy
  obtain ⟨xs, hxs⟩ := Layout.mem_blocks_iff.1 hblock
  obtain ⟨front, term, rfl, hterm, -⟩ := ht.regular.shape.ended hxs
  obtain ⟨inst, hinst⟩ := DataFlow.inst_of_isTerminator hterm
  have hterm' : inst.op.isTerminator = true :=
    (DataFlow.isTerminator_of_inst hinst).symm.trans hterm
  have hleads : ∀ c, f₁.Leads block c ↔ c ∈ inst.blocks :=
    fun c => (h.untouched hnew c).symm.trans (Func.leads_last_iff hxs hinst hterm')
  refine (Run.yields_lift ⟨_, Func.terminator?_last hxs hterm, rfl⟩).bind ?_
  rintro _ rfl
  refine (Run.yields_lift ⟨_, DataFlow.inst_eq_ok.2 hinst, rfl⟩).bind ?_
  rintro _ rfl
  split
  · rename_i hop
    refine Run.yields_pure (h.skip hnew fun c c' hc hc' => ?_)
    rw [hleads] at hc hc'
    have hform := ht.regular.forms hinst
    cases inst with
    | jump op t => rw [List.mem_singleton.1 hc, List.mem_singleton.1 hc']
    | branch op x t e =>
      have hcond : op = .brCond := by simpa [Verify.formFits] using hform
      exact absurd hcond hop
    | phi op args preds =>
      have hphi : op = .phi := by simpa [Verify.formFits] using hform
      rw [hphi] at hterm'
      cases hterm'
    | _ => cases hc
  · rename_i hop
    have hop : inst.op = .brCond := not_not.1 hop
    obtain ⟨c, onTrue, onFalse, rfl⟩ := Verify.branch_of_form (ht.regular.forms hinst) hop
    obtain ⟨r, hr, hparts, hnone⟩ := onlyEdge?_ok facts block c onTrue onFalse
    refine (Run.yields_lift ⟨_, hr, rfl⟩).bind ?_
    rintro _ rfl
    cases r with
    | none =>
      refine Run.yields_pure (h.skip hnew fun d d' hd hd' => ?_)
      have hsame := hnone rfl
      rw [hleads] at hd hd'
      simp only [Inst.blocks, List.mem_cons, List.not_mem_nil, or_false] at hd hd'
      rcases hd with rfl | rfl <;> rcases hd' with rfl | rfl <;>
        first | rfl | exact hsame | exact hsame.symm
    | some edge =>
      obtain ⟨taken, dropped⟩ := edge
      obtain ⟨hparts, htaken, hdropped⟩ := hparts rfl
      refine (Builder.foldBranch_yields (fun _ _ => True) ht.toNeat hxs hinst rfl hparts
        trivial).bind fun b' hfolded => ?_
      exact Run.yields_pure (h.fold hf₁ hnew hfolded hparts hleads htaken hdropped)

/-- Facts that are of the right types can be put to use: first known results are replaced, and then
branches are folded at the end of all blocks that may run. -/
theorem apply_yields (ht : b.func.Tidy entry) (hf : facts.Typed b.func) :
    (apply facts b).Yields fun r => ∃ b₁, Filling facts b.func entry b₁ ∧
      Folding facts b.func b₁.func entry (b.func.blocks.filter facts.runs) r.2 := by
  have hstart : Filling facts b.func entry b := ⟨⟨ht, .refl b.func⟩, [], id, .refl facts b.func⟩
  have hmem : ∀ {pre block post}, b.func.blocks.filter facts.runs = pre ++ block :: post →
      ∀ {c : Builder}, Underway b.func entry c → block ∈ c.func.blocks := by
    intro pre block post he c hc
    rw [hc.reworked.blocks]
    have hin : block ∈ b.func.blocks.filter facts.runs :=
      he ▸ List.mem_append_right _ List.mem_cons_self
    exact (List.mem_filter.1 hin).1
  have hnodup : (b.func.blocks.filter facts.runs).Nodup :=
    ht.regular.coherent.layout.blocks_nodup.filter _
  unfold apply
  refine (Run.yields_foldlM (fun _ (r : Bool × Builder) => Filling facts b.func entry r.2)
    hstart ?_).bind ?_
  · rintro pre block post ⟨modified, c⟩ he hc
    obtain ⟨xs, hxs⟩ := Layout.mem_blocks_iff.1 (hmem he hc.1)
    refine (Run.yields_lift ⟨_, hxs, rfl⟩).bind ?_
    rintro _ rfl
    apply Run.yields_foldlM (fun _ (r : Bool × Builder) => Filling facts b.func entry r.2) hc
    rintro _ i _ ⟨modified, d⟩ _ hd
    exact replaceResult_yields hd hf modified i
  · rintro ⟨modified, b₁⟩ hb₁
    have hregular := hb₁.1.tidy.regular
    have hfold : Folding facts b.func b₁.func entry [] b₁ :=
      ⟨hb₁.1, .refl hregular.toFormed, fun p c => by simp⟩
    refine (Run.yields_foldlM (fun done (r : Bool × Builder) =>
      Folding facts b.func b₁.func entry done r.2) hfold ?_).mono
      fun _ hr => ⟨b₁, hb₁, hr⟩
    rintro pre block post ⟨modified, d⟩ he hd
    refine foldBranch_yields hd hregular modified (hmem he hd.underway) ?_
    rw [he] at hnodup
    exact fun hin => (List.nodup_append.1 hnodup).2.2 block hin block List.mem_cons_self rfl

end ConstantPropagation

namespace Module

theorem lookup?_eq (m : Module) (name : String) :
    m.lookup? name = ((m.funcs.map Func.name).toList.find? (·.2 = name)).map (·.1) := by
  rw [Table.toList_map, List.find?_map, Option.map_map]
  rfl

theorem funcIds_eq (m : Module) : m.funcIds = (m.funcs.map Func.name).keys := by
  unfold Table.keys
  rw [Table.toList_map, List.map_map]
  rfl

theorem mem_funcIds {m : Module} {id : FuncId} :
    id ∈ m.funcIds ↔ ∃ f, m.funcs.get? id = some f := by
  constructor
  · intro h
    obtain ⟨⟨id', f⟩, hf, rfl⟩ := List.mem_map.1 h
    exact ⟨f, Table.mem_toList.1 hf⟩
  · rintro ⟨f, hf⟩
    exact List.mem_map.2 ⟨(id, f), Table.mem_toList.2 hf, rfl⟩

end Module

theorem Func.SearchableIn.congr {f : Func} {m m' : Module} (h : f.SearchableIn m)
    (hnames : m'.funcs.map Func.name = m.funcs.map Func.name)
    (hsigs : ∀ {id g'}, m'.funcs.get? id = some g' → ∃ g, m.funcs.get? id = some g ∧
      g'.sig = g.sig) :
    f.SearchableIn m' := by
  refine ⟨h.workable, h.params, ?_, h.calls⟩
  intro target imp id g' himp hid hg'
  obtain ⟨g, hg, hsig⟩ := hsigs hg'
  rw [Module.lookup?_eq, hnames, ← Module.lookup?_eq] at hid
  rw [hsig]
  exact h.imports himp hid hg

namespace ConstantPropagation

/-- What propagation needs of the functions of a module, and keeps. -/
def Ready (m : Module) : Prop :=
  ∀ {id f}, m.funcs.get? id = some f → f.SearchableIn m ∧ ∃ entry, f.Tidy entry

variable {m m' : Module} {id : FuncId} {f f' : Func} {entry : BlockId}

theorem Ready.set (h : Ready m) (hf : m.funcs.get? id = some f) (hr : f.Reworked f')
    (ht : f'.Tidy entry) (hnames : m'.funcs.map Func.name = m.funcs.map Func.name)
    (hget : ∀ k, m'.funcs.get? k = if k = id then some f' else m.funcs.get? k) : Ready m' := by
  have hsigs : ∀ {k g'}, m'.funcs.get? k = some g' → ∃ g, m.funcs.get? k = some g ∧
      g'.sig = g.sig := by
    intro k g' hg'
    rw [hget] at hg'
    split at hg'
    · rename_i hk
      cases hg'
      exact ⟨f, hk ▸ hf, hr.sig⟩
    · exact ⟨g', hg', rfl⟩
  intro k g' hg'
  rw [hget] at hg'
  split at hg'
  · cases hg'
    exact ⟨(hr.searchable (h hf).1 ht).congr hnames hsigs, entry, ht⟩
  · exact ⟨(h hg').1.congr hnames hsigs, (h hg').2⟩

theorem runOnModule_yields (hm : Ready m) (maxDepth : Nat) (order : Propagation.UserOrder) :
    (runOnModule maxDepth m order).Yields fun r => Ready r.2 ∧
    r.2.funcs.map Func.name = m.funcs.map Func.name := by
  unfold runOnModule
  apply Run.yields_foldlM
    (fun _ (r : Bool × Module) => Ready r.2 ∧
    r.2.funcs.map Func.name = m.funcs.map Func.name) ⟨hm, rfl⟩
  rintro pre id post ⟨modified, m₁⟩ he ⟨hm₁, hnames⟩
  have hid : id ∈ m₁.funcIds := by
    rw [Module.funcIds_eq, hnames, ← Module.funcIds_eq, he]
    exact List.mem_append_right _ List.mem_cons_self
  obtain ⟨f, hf⟩ := Module.mem_funcIds.1 hid
  obtain ⟨-, entry, ht⟩ := hm₁ hf
  have hentry : f.isEmpty = false := by
    unfold Func.isEmpty
    rw [ofOption_eq_ok.1 ht.regular.starts]
    rfl
  refine (Run.yields_lift ⟨f, ofOption_eq_ok.2 hf, rfl⟩).bind ?_
  rintro _ rfl
  refine (Run.yields_log (P := fun _ => True) trivial).bind fun _ _ => ?_
  rw [hentry]
  refine (Module.facts_closed (fun hg => (hm₁ hg).1) hf maxDepth order).bind ?_
  rintro facts ⟨start, -, hclosed, -⟩
  refine (apply_yields ht hclosed.typed).bind ?_
  rintro ⟨changed, b⟩ ⟨b₁, -, hfold⟩
  have hb := hfold.underway
  obtain ⟨t, hset, hget, hmap⟩ := Table.set_ok b.func hf
  refine (Run.yields_lift ⟨{ m₁ with funcs := t }, ?_, rfl⟩).bind ?_
  · unfold Module.setFunc
    rw [hset, ok_bind]
  · rintro _ rfl
    exact Run.yields_pure ⟨hm₁.set hf hb.reworked hb.tidy (hmap hb.reworked.name) hget,
      (hmap hb.reworked.name).trans hnames⟩

end ConstantPropagation

/-- What propagation asks of a function of the module. It verifies, has no registers, and starts in
a block without phis that nothing leads to. No integer that is computed is without bits, phis yield
values and terminators do not. Parameters, calls and the functions that calls lead to have the types
that the signatures say. -/
structure Func.PropagableIn (f : Func) (m : Module) : Prop where
  clean : ∃ entry, f.Clean entry ∧ f.predecessors entry = []
  wide : ∀ i, f.yieldTy i ≠ .int 0
  phis : ∀ c phis, f.Reachable c → f.phis c = .ok phis → ∀ i ∈ phis, ∃ r, f.flow.result? i = some r
  last : ∀ i, f.flow.isTerminator i = true → f.flow.result? i = none
  params : f.params.map f.tyOf = f.sig.params
  imports : ∀ {target imp id g}, f.flow.imports.get? target = some imp →
    m.lookup? imp.name = some id →
    m.funcs.get? id = some g → imp.sig.agrees g.sig = true
  calls : ∀ {i op target vs r imp}, f.flow.inst? i = some (.call op target vs) →
    f.flow.result? i = some r →
    f.flow.imports.get? target = some imp → f.flow.ty r = .ok imp.sig.returns

theorem Func.PropagableIn.ready {f : Func} {m : Module} (h : f.PropagableIn m) :
    f.SearchableIn m ∧ ∃ entry, f.Tidy entry := by
  obtain ⟨entry, hclean, hsource⟩ := h.clean
  have ht := hclean.tidy hsource h.phis h.last
  exact ⟨⟨⟨entry, ht.workable h.wide⟩, h.params, h.imports, h.calls⟩, entry, ht⟩

namespace ConstantPropagation

/-- Propagation goes through a whole module, however deep calls are evaluated and in whatever order
users are gone through, and all functions still verify. -/
theorem runOnModule_verifies {m : Module}
    (hm : ∀ {id f}, m.funcs.get? id = some f → f.PropagableIn m) (maxDepth : Nat)
    (order : Propagation.UserOrder) :
    ∃ modified m', (runOnModule maxDepth m order).outcome = .ok (modified, m') ∧
      m'.funcIds = m.funcIds ∧
      ∀ {id f}, m'.funcs.get? id = some f → f.errors = .ok [] := by
  have hready : Ready m := fun hf => (hm hf).ready
  obtain ⟨⟨modified, m'⟩, hrun, hm', hnames⟩ := (runOnModule_yields hready maxDepth order).outcome
  refine ⟨modified, m', hrun, ?_, ?_⟩
  · rw [Module.funcIds_eq, Module.funcIds_eq, hnames]
  · intro id f hf
    obtain ⟨-, entry, ht⟩ := hm' hf
    exact ht.verified

theorem propagableIn_of_all {f : Func} {m : Module} (hc : f.Coherent)
    (h : (FlowSimplification.isSimplifiable f && f.isSolvableIn m) = true) : f.PropagableIn m := by
  rw [Bool.and_eq_true] at h
  obtain ⟨entry, hclean, hsource, hphis, hlast⟩ :=
    FlowSimplification.simplifiable_of_isSimplifiable hc h.1
  have hs := (Func.solvableIn_of_isSolvableIn hc h.2).searchable
  obtain ⟨start, hw⟩ := hs.workable
  exact ⟨⟨entry, hclean, hsource⟩, hw.wide, hphis, hlast, hs.params, hs.imports, hs.calls⟩

/-- A function that branches on what a call returns. -/
def callDecides : Checked Module :=
  Module.build
    [("g", ⟨[.int 32], some (.int 32)⟩,
      [.block (some "entry"), .goTo (.append ⟨0⟩), .insert (.binary .add ⟨0⟩ ⟨0⟩) (.int 32),
        .insert (.unary .retValue ⟨1⟩) .void]),
    ("f", ⟨[], some (.int 32)⟩,
      [.block (some "entry"), .block (some "yes"), .block (some "no"),
      .declare "g" ⟨[.int 32], some (.int 32)⟩,
        .const (.int32 4), .const (.int32 8),
        .goTo (.append ⟨0⟩), .insert (.call .call ⟨0⟩ [⟨0⟩]) (.int 32),
        .insert (.binary .eq ⟨2⟩ ⟨1⟩) (.int 1), .insert (.branch .brCond ⟨3⟩ ⟨1⟩ ⟨2⟩) .void,
        .goTo (.append ⟨1⟩), .insert (.unary .retValue ⟨2⟩) .void,
        .goTo (.append ⟨2⟩), .insert (.unary .retValue ⟨0⟩) .void])]

theorem callDecides_verifies : ∃ m f modified m', callDecides = .ok m ∧ m.funcs.get? ⟨1⟩ = some f ∧
    f.PropagableIn m ∧ (runOnModule 8 m).outcome = .ok (modified, m') ∧ m'.funcIds = m.funcIds ∧
    ∀ {id f}, m'.funcs.get? id = some f → f.errors = .ok [] := by
  obtain ⟨m, hm, h⟩ := exists_of_any (x := callDecides) (p := fun m => m.funcs.values.all (fun f =>
    FlowSimplification.isSimplifiable f && f.isSolvableIn m) && (m.funcs.get? ⟨1⟩).isSome)
      (by decide +kernel)
  rw [Bool.and_eq_true] at h
  obtain ⟨f, hf⟩ := Option.isSome_iff_exists.1 h.2
  have hprop : ∀ {id f}, m.funcs.get? id = some f → f.PropagableIn m := by
    intro id f hf
    apply propagableIn_of_all (Module.build_coherent (by decide) hm hf)
    exact List.all_eq_true.1 h.1 f (List.mem_map.2 ⟨(id, f), Table.mem_toList.2 hf, rfl⟩)
  obtain ⟨modified, m', hrun, hids, hverified⟩ := runOnModule_verifies hprop 8 .ascending
  exact ⟨m, f, modified, m', hm, hf, hprop hf, hrun, hids, hverified⟩

/-- A function returns 64 bits, and its caller takes them for 32. -/
def callMistakes : Checked Module :=
  Module.build
    [("g", ⟨[], some (.int 64)⟩,
      [.block (some "entry"), .const (.wrap 64 (Nat.succ_pos 63) 5), .goTo (.append ⟨0⟩),
        .insert (.unary .retValue ⟨0⟩) .void]),
    ("f", ⟨[], some (.int 32)⟩,
      [.block (some "entry"), .declare "g" ⟨[], some (.int 32)⟩, .const (.int32 1),
        .goTo (.append ⟨0⟩), .insert (.call .call ⟨0⟩ []) (.int 32),
        .insert (.binary .add ⟨1⟩ ⟨0⟩) (.int 32), .insert (.unary .retValue ⟨2⟩) .void])]

/-- The module links and its functions verify, but propagation adds words of two widths. -/
theorem callMistakes_fails : ∃ m e, callMistakes = .ok m ∧ m.link.outcome = .ok none ∧
    (∀ {id f}, m.funcs.get? id = some f → ∃ entry, f.Clean entry ∧ f.predecessors entry = []) ∧
    (runOnModule 8 m).outcome = .error e := by
  obtain ⟨m, hm, h⟩ := exists_of_any (x := callMistakes) (p := fun m =>
    m.funcs.values.all FlowSimplification.isSimplifiable && m.link.outcome.toOption = some none &&
    (runOnModule 8 m).outcome.toOption.isNone) (by decide +kernel)
  simp only [Bool.and_eq_true, decide_eq_true_eq] at h
  obtain ⟨⟨hall, hlink⟩, hrun⟩ := h
  have hclean : ∀ {id f}, m.funcs.get? id = some f → ∃ entry, f.Clean entry ∧
      f.predecessors entry = [] := by
    intro id f hf
    obtain ⟨entry, hclean, hsource, -, -⟩ := FlowSimplification.simplifiable_of_isSimplifiable
      (Module.build_coherent (by decide) hm hf)
      (List.all_eq_true.1 hall f (List.mem_map.2 ⟨(id, f), Table.mem_toList.2 hf, rfl⟩))
    exact ⟨entry, hclean, hsource⟩
  cases ho : (runOnModule 8 m).outcome with
  | ok r =>
    rw [ho] at hrun
    cases hrun
  | error e => exact ⟨m, e, hm, ok_of_toOption hlink, hclean, ho⟩

end ConstantPropagation

end MiddleEnd
