import MiddleEnd.Proofs.ConstantFacts
import MiddleEnd.Proofs.TypeSafety

/-!
# Constants in the place of known results

Results that are known give way to constants, and the instructions that computed them go. What
nothing is known about is taken for whatever constant suits, so where the function computes with
something undefined, the one that is left may compute with a word. The two run alike otherwise: they
take the same edges and return the same, unless a division finds a divisor where there was none.
-/

namespace MiddleEnd

/-- The second datum is the first one, or a word of the type for something undefined. -/
inductive Datum.RefinedBy (ty : Ty) : Datum → Datum → Prop where
  | same (d : Datum) : RefinedBy ty d d
  | word {w : Word} : ty = w.ty → RefinedBy ty .undefined (.word w)

namespace Datum.RefinedBy

variable {cells : Cell → Ty} {ty : Ty} {d d' : Datum}

theorem eq_of_ne (h : RefinedBy ty d d') (hd : d ≠ .undefined) : d' = d := by
  cases h with
  | same => rfl
  | word => exact absurd rfl hd

theorem hasTy (h : RefinedBy ty d d') (hd : d.HasTy cells ty) : d'.HasTy cells ty := by
  cases h with
  | same => exact hd
  | word hw => exact hw

theorem of_hasTy (hd : d.HasTy cells ty) (hcell : ∀ cell, d ≠ .address cell) :
    RefinedBy ty .undefined d := by
  cases d with
  | undefined => exact .same _
  | word w => exact .word hd
  | address cell => exact absurd rfl (hcell cell)

theorem of_admits {w : Word} (h : (LatticeValue.const w).Admits d) (hty : ty = w.ty) :
    RefinedBy ty d (.word w) := by
  rcases LatticeValue.admits_const.1 h with rfl | rfl
  · exact .word hty
  · exact .same _

end Datum.RefinedBy

namespace Frame

variable {f : Func} {cells : Cell → Ty} {i : InstId} {op : Opcode} {x y : ValueId}
  {a a' b b' d : Datum}

theorem compute_refined_unary (hf : f.Ruled cells) (hi : f.flow.inst? i = some (.unary op x))
    (hl : op ≠ .load) (hr : op ≠ .retValue) (ha : a.HasTy cells (f.tyOf x))
    (hrefine : a.RefinedBy (f.tyOf x) a') (hd : compute f i op [a] = .ok d) :
    ∃ d', compute f i op [a'] = .ok d' ∧ d.RefinedBy (f.yieldTy i) d' := by
  obtain ⟨hform, hrule⟩ := hf.types hi
  obtain ⟨d', hd', hty⟩ :=
    compute_unary hf.coherent hl hr hform hrule (hf.wide i) (hrefine.hasTy ha)
  refine ⟨d', hd', ?_⟩
  by_cases hu : a = .undefined
  · rw [compute_undefined (by simp [hu])] at hd
    cases hd
    exact .of_hasTy hty fun cell he => compute_ne_address (he ▸ hd')
  · rw [hrefine.eq_of_ne hu, hd] at hd'
    cases hd'
    exact .same _

/-- An operation on more defined operands still has a result, which is more defined, unless it
divides: then the divisor has to be there before. -/
theorem compute_refined_binary (hf : f.Ruled cells) (hi : f.flow.inst? i = some (.binary op x y))
    (hs : op ≠ .store) (hc : op ≠ .copy) (ha : a.HasTy cells (f.tyOf x))
    (hb : b.HasTy cells (f.tyOf y)) (hra : a.RefinedBy (f.tyOf x) a')
    (hrb : b.RefinedBy (f.tyOf y) b')
    (hdiv : op.isDivision = true → ∃ w, b = .word w ∧ w.isZero = false)
    (hd : compute f i op [a, b] = .ok d) :
    ∃ d', compute f i op [a', b'] = .ok d' ∧ d.RefinedBy (f.yieldTy i) d' := by
  obtain ⟨hform, hrule⟩ := hf.types hi
  by_cases hu : a = .undefined ∨ b = .undefined
  · have hmem : .undefined ∈ [a, b] := by
      rcases hu with rfl | rfl <;> simp
    rw [compute_undefined hmem] at hd
    cases hd
    rcases compute_binary hs hc hform hrule (hra.hasTy ha) (hrb.hasTy hb) with ⟨d', hd', hty⟩ |
      ⟨e, he, hrefuse⟩
    · exact ⟨d', hd', .of_hasTy hty fun cell he => compute_ne_address (he ▸ hd')⟩
    · cases hrefuse with
      | zeroDivisor hop hz =>
        obtain ⟨w, rfl, hw⟩ := hdiv hop
        cases hrb.eq_of_ne (by simp)
        rw [hw] at hz
        cases hz
      | addresses =>
        -- What is refined to an address is that address.
        cases hra
        cases hrb
        simp at hu
  · rw [not_or] at hu
    rw [hra.eq_of_ne hu.1, hrb.eq_of_ne hu.2]
    exact ⟨d, hd, .same d⟩

end Frame

/-- Constants have taken the place of values that are known, as `τ` says, and the instructions of
`D` are gone. -/
structure Func.Filled (facts : Facts) (f f' : Func) (D : List InstId) (τ : ValueId → ValueId) :
    Prop where
  insts : ∀ b, f'.insts b = (f.insts b).map (·.filter (· ∉ D))
  inst? : ∀ i, f'.flow.inst? i = if i ∈ D then none else (f.flow.inst? i).map (·.mapArgs τ)
  result? : ∀ i, f'.flow.result? i = if i ∈ D then none else f.flow.result? i
  origin? : ∀ {v o}, f.flow.origin? v = some o → (∀ i ∈ D, f.flow.result? i ≠ some v) →
    f'.flow.origin? v = some o
  params : f'.flow.params = f.flow.params
  alike : f.Alike f'
  known : ∀ v, τ v = v ∨ ∃ w, facts.known f v = .const w ∧ f'.flow.origin? (τ v) = some (.const w)
  /-- What is gone had no effects, and its result was replaced. -/
  gone : ∀ i ∈ D, f.flow.hasSideEffects i = false ∧ ∀ v, f.flow.result? i = some v → τ v ≠ v

namespace Func.Filled

variable {facts : Facts} {f f' f'' : Func} {D : List InstId} {τ θ : ValueId → ValueId}
  {entry : BlockId}

theorem refl (facts : Facts) (f : Func) : f.Filled facts f [] id := by
  refine ⟨fun b => ?_, fun i => ?_, fun i => ?_, fun h _ => h, rfl, .refl f, fun v => .inl rfl,
    fun i hi => by cases hi⟩
  · cases f.insts b with
    | error e => rfl
    | ok xs => rw [map_ok, List.filter_eq_self.2 (by simp)]
  · cases f.flow.inst? i with
    | none => rfl
    | some inst => exact congrArg some (Inst.mapArgs_eq_self (g := id) fun _ _ => rfl).symm
  · rfl

theorem inst_of (h : f.Filled facts f' D τ) {i : InstId} {inst' : Inst}
    (hi : f'.flow.inst? i = some inst') :
    i ∉ D ∧ ∃ inst, f.flow.inst? i = some inst ∧ inst' = inst.mapArgs τ := by
  rw [h.inst?] at hi
  split at hi
  · cases hi
  · rename_i hD
    obtain ⟨inst, hinst, rfl⟩ := Option.map_eq_some_iff.1 hi
    exact ⟨hD, inst, hinst, rfl⟩

theorem inst_ok (h : f.Filled facts f' D τ) {i : InstId} {inst : Inst}
    (hi : f.flow.inst? i = some inst) (hD : i ∉ D) :
    f'.flow.inst? i = some (inst.mapArgs τ) := by
  rw [h.inst?, if_neg hD, hi, Option.map_some]

theorem insts_ok (h : f.Filled facts f' D τ) {b : BlockId} {xs : List InstId}
    (hb : f.insts b = .ok xs) :
    f'.insts b = .ok (xs.filter (· ∉ D)) := by
  rw [h.insts, hb, map_ok]

theorem isPhi (h : f.Filled facts f' D τ) {i : InstId} (hD : i ∉ D) :
    f'.flow.isPhi i = f.flow.isPhi i := by
  unfold DataFlow.isPhi DataFlow.op?
  rw [h.inst?, if_neg hD]
  cases f.flow.inst? i with
  | none => rfl
  | some inst => simp

theorem hasSideEffects (h : f.Filled facts f' D τ) {i : InstId} (hD : i ∉ D) :
    f'.flow.hasSideEffects i = f.flow.hasSideEffects i := by
  unfold DataFlow.hasSideEffects DataFlow.op?
  rw [h.inst?, if_neg hD]
  cases f.flow.inst? i with
  | none => rfl
  | some inst => simp

theorem origin_eq (h : f.Filled facts f' D τ) {v : ValueId} {o : ValueDef}
    (ho : f.flow.origin? v = some o) (hτ : τ v = v) : f'.flow.origin? v = some o :=
  h.origin? ho fun i hi hr => (h.gone i hi).2 v hr hτ

theorem origin_result (h : f.Filled facts f' D τ) (hc : f.Coherent) {i : InstId} {v : ValueId}
    (hv : f.flow.result? i = some v) (hD : i ∉ D) : f'.flow.origin? v = f.flow.origin? v := by
  obtain ⟨ty, ho, -⟩ := hc.flow.result_origin hv
  rw [ho]
  refine h.origin? ho fun j hj hr => hD ?_
  rwa [← hc.flow.definer_eq hr ho] at hj

theorem rewire (h : f.Filled facts f' D τ) {g : DataFlow} {ρ : InstId → Inst → Inst}
    (hR : DataFlow.Rewired f'.flow g ρ) (hρ : ∀ i inst, ρ i inst = inst.mapArgs θ)
    (hθ : ∀ v, θ v = v ∨ (∃ ty i, f'.flow.origin? v = some (.result ty i)) ∧
      ∃ w, facts.known f v = .const w ∧ g.origin? (θ v) = some (.const w)) :
    f.Filled facts { f' with flow := g } D (θ ∘ τ) := by
  have hconst : ∀ {v w}, f'.flow.origin? (τ v) = some (.const w) → θ (τ v) = τ v := by
    intro v w hw
    refine (hθ (τ v)).resolve_right ?_
    rintro ⟨⟨ty, i, ho⟩, -⟩
    cases hw.symm.trans ho
  refine ⟨h.insts, fun i => ?_, fun i => ?_, fun ho hD => hR.origin? (h.origin? ho hD),
    hR.params.trans h.params, ⟨h.alike.name, h.alike.sig, h.alike.blockTable, h.alike.blocks⟩,
    fun v => ?_, fun i hi => ⟨(h.gone i hi).1, ?_⟩⟩
  · show g.inst? i = _
    rw [hR.inst?, h.inst?]
    split
    · rfl
    · rw [Option.map_map]
      congr 1
      funext inst
      exact (hρ i _).trans (Inst.mapArgs_mapArgs τ θ inst)
  · exact (hR.result? i).trans (h.result? i)
  · rcases h.known v with hv | ⟨w, hk, hw⟩
    · rw [Function.comp_apply, hv]
      exact (hθ v).imp id And.right
    · rw [Function.comp_apply, hconst hw]
      exact .inr ⟨w, hk, hR.origin? hw⟩
  · intro v hv
    obtain ⟨w, -, hw⟩ := (h.known v).resolve_left ((h.gone i hi).2 v hv)
    rw [Function.comp_apply, hconst hw]
    exact (h.gone i hi).2 v hv

theorem swap (h : f.Filled facts f' D τ) {g : DataFlow} {r v : ValueId} {ty : Ty}
    {i : InstId} {w : Word}
    (hR : DataFlow.Rewired f'.flow g fun _ inst => inst.mapArgs (DataFlow.swap r v))
    (hr : f'.flow.origin? r = some (.result ty i)) (hk : facts.known f r = .const w)
    (hv : g.origin? v = some (.const w)) :
    f.Filled facts { f' with flow := g } D (DataFlow.swap r v ∘ τ) := by
  refine h.rewire hR (fun _ _ => rfl) fun u => ?_
  by_cases hu : u = r
  · rw [hu, DataFlow.swap, if_pos rfl]
    exact .inr ⟨⟨ty, i, hr⟩, w, hk, hv⟩
  · exact .inl (DataFlow.swap_of_ne hu)

theorem swap_ne (h : f.Filled facts f' D τ) {r v u : ValueId} {i : InstId}
    (hr : f'.flow.result? i = some r) (hne : v ≠ r) (hu : f.flow.result? i = some u) :
    (DataFlow.swap r v ∘ τ) u ≠ u := by
  have hres := h.result? i
  split at hres
  · cases hr.symm.trans hres
  · rw [hu] at hres
    cases hr.symm.trans hres
    by_cases hτ : τ r = r
    · simpa [hτ, DataFlow.swap] using hne
    · simp [DataFlow.swap, hτ]

theorem thin (h : f.Filled facts f' D τ) (hc : f'.Coherent) {i : InstId}
    (ht : f'.Thinned f'' [i]) (hi : i ∉ D) (heff : f'.flow.hasSideEffects i = false)
    (hτ : ∀ v, f.flow.result? i = some v → τ v ≠ v) :
    f.Filled facts f'' (D ++ [i]) τ := by
  have hmem : ∀ {j}, j ∈ D ++ [i] ↔ j ∈ D ∨ j = i := by simp
  refine ⟨fun b => ?_, fun j => ?_, fun j => ?_, fun {v o} ho hD => ?_, ht.params.trans h.params,
    h.alike.trans ht.alike,
    fun v => ?_, fun j hj => ?_⟩
  · rw [ht.insts, h.insts]
    cases f.insts b with
    | error e => rfl
    | ok xs =>
      rw [map_ok, map_ok, map_ok, List.filter_filter]
      congr 2
      funext j
      simp [and_comm]
  · rw [ht.inst?, h.inst?]
    by_cases hj : j = i
    · simp [hj]
    · simp [hj]
  · rw [ht.result?, h.result?]
    by_cases hj : j = i
    · simp [hj]
    · simp [hj]
  · refine ht.origin? (h.origin? ho fun j hj => hD j (hmem.2 (.inl hj))) fun j hj => ?_
    rw [List.mem_singleton.1 hj, h.result?, if_neg hi]
    exact hD i (hmem.2 (.inr rfl))
  · refine (h.known v).imp id ?_
    rintro ⟨w, hk, hw⟩
    refine ⟨w, hk, ht.origin? hw fun j hj hr => ?_⟩
    obtain ⟨ty, ho, -⟩ := hc.flow.result_origin hr
    cases hw.symm.trans ho
  · rcases hmem.1 hj with hj | rfl
    · exact h.gone j hj
    · exact ⟨(h.hasSideEffects hi).symm.trans heff, hτ⟩

end Func.Filled

/-- If a division comes next, its divisor is a word other than zero. -/
def Frame.Divides (f : Func) (s : Frame) : Prop :=
  ∀ i rest op x y, s.rest = i :: rest → f.flow.inst? i = some (.binary op x y) →
    op.isDivision = true →
    ∃ w, s.read f y = .ok (.word w) ∧ w.isZero = false

/-- The second frame stands where the first one does, and its data are more defined. -/
structure Frame.Fills (f : Func) (cells : Cell → Ty) (D : List InstId) (τ : ValueId → ValueId)
    (s s' : Frame) :
    Prop where
  block : s'.block = s.block
  rest : s'.rest = s.rest.filter (· ∉ D)
  activation : s'.activation = s.activation
  values : ∀ {v d}, τ v = v → s.values v = some d → ∃ d', s'.values v = some d' ∧
    d.RefinedBy (f.tyOf v) d'
  memory : ∀ cell, (s.memory cell).RefinedBy (cells cell) (s'.memory cell)

section Runs

variable {facts : Facts} {f f' : Func} {D : List InstId} {τ : ValueId → ValueId} {entry : BlockId}
  {cells : Cell → Ty} {s s' t : Frame} {i : InstId} {inst : Inst} {d : Datum}

theorem Func.Filled.resultWidth? (hfill : f.Filled facts f' D τ) (hc : f.Coherent) (hD : i ∉ D) :
    Frame.resultWidth? f' i = Frame.resultWidth? f i :=
  Frame.resultWidth?_congr hc.flow (by rw [hfill.result?, if_neg hD]) fun hr ho =>
    (hfill.origin_result hc hr hD).trans ho

theorem Frame.Fills.read (h : s.Fills f cells D τ s') (hfill : f.Filled facts f' D τ)
    (hty : facts.Typed f) (ht : facts.Tracks f s) {v : ValueId} {o : ValueDef}
    (ho : f.flow.origin? v = some o) (hd : s.read f v = .ok d) :
    ∃ d', s'.read f' (τ v) = .ok d' ∧ d.RefinedBy (f.tyOf v) d' := by
  rcases hfill.known v with hv | ⟨w, hk, hw⟩
  · rw [hv]
    have ho' := hfill.origin_eq ho hv
    have hvalue : ∀ {e}, s.values v = some e → ∃ d', s'.values v = some d' ∧
        e.RefinedBy (f.tyOf v) d' := h.values hv
    unfold Frame.read at hd ⊢
    rw [ho] at hd
    rw [ho']
    cases o with
    | const w =>
      cases hd
      exact ⟨_, rfl, .same _⟩
    | undef ty =>
      cases hd
      exact ⟨_, rfl, .same _⟩
    | _ =>
      cases hval : s.values v with
      | none =>
        rw [hval] at hd
        cases hd
      | some e =>
        rw [hval] at hd
        cases hd
        obtain ⟨d', hd', hrefine⟩ := hvalue hval
        rw [hd']
        exact ⟨d', rfl, hrefine⟩
  · have hadmits := ht.read hd
    rw [hk] at hadmits
    exact ⟨.word w, Frame.read_const hw, .of_admits hadmits (hty hk)⟩

theorem Frame.Fills.read_eq (h : s.Fills f cells D τ s') (hfill : f.Filled facts f' D τ)
    (hty : facts.Typed f) (ht : facts.Tracks f s) {v : ValueId} {o : ValueDef}
    (ho : f.flow.origin? v = some o) (hd : s.read f v = .ok d) (hu : d ≠ .undefined) :
    s'.read f' (τ v) = .ok d := by
  obtain ⟨d', hd', hrefine⟩ := h.read hfill hty ht ho hd
  rw [hd', hrefine.eq_of_ne hu]

theorem Frame.Fills.gives (h : s.Fills f cells D τ s') (hfill : f.Filled facts f' D τ)
    (hty : facts.Typed f) (ht : facts.Tracks f s) (hf : f.Ruled cells) (htyped : s.Typed f cells)
    (hdiv : s.Divides f) {rest : List InstId} (hrest : s.rest = i :: rest)
    (hi : f.flow.inst? i = some inst) (hD : i ∉ D) (hg : Frame.Gives f s i inst d) :
    ∃ d', Frame.Gives f' s' i (inst.mapArgs τ) d' ∧ d.RefinedBy (f.yieldTy i) d' := by
  have hwidth := hfill.resultWidth? hf.coherent hD
  have hread : ∀ {v a}, v ∈ inst.args → s.read f v = .ok a →
      ∃ a', s'.read f' (τ v) = .ok a' ∧ a.RefinedBy (f.tyOf v) a' := by
    intro v a hv ha
    obtain ⟨o, ho⟩ := hf.coherent.flow.operand hi hv
    exact h.read hfill hty ht ho ha
  cases hg with
  | alloca =>
    refine ⟨_, ?_, .same _⟩
    rw [← h.activation]
    exact .alloca
  | @load x cell hx =>
    obtain ⟨a', ha', hrefine⟩ := hread (by simp [Inst.args]) hx
    rw [hrefine.eq_of_ne (by simp)] at ha'
    refine ⟨s'.memory cell, .load ha', ?_⟩
    rw [← htyped.ty_of_load hf hi hx]
    exact h.memory cell
  | @unary op x a d hl hr hx hd =>
    obtain ⟨a', ha', hrefine⟩ := hread (by simp [Inst.args]) hx
    obtain ⟨d', hd', hrefine'⟩ :=
      Frame.compute_refined_unary hf hi hl hr (htyped.read hx) hrefine hd
    exact ⟨d', .unary hl hr ha' (Frame.compute_congr hwidth hd'), hrefine'⟩
  | @binary op x y a b d hs hc hx hy hd =>
    obtain ⟨a', ha', hrefine⟩ := hread (by simp [Inst.args]) hx
    obtain ⟨b', hb', hrefine'⟩ := hread (by simp [Inst.args]) hy
    have hdivisor : op.isDivision = true → ∃ w, b = .word w ∧ w.isZero = false := by
      intro hop
      obtain ⟨w, hw, hz⟩ := hdiv i rest op x y hrest hi hop
      exact ⟨w, Except.ok.inj (hy.symm.trans hw), hz⟩
    obtain ⟨d', hd', hrefine''⟩ :=
      Frame.compute_refined_binary hf hi hs hc (htyped.read hx) (htyped.read hy) hrefine
        hrefine' hdivisor hd
    exact ⟨d', .binary hs hc ha' hb' (Frame.compute_congr hwidth hd'), hrefine''⟩

theorem Frame.Fills.goes (h : s.Fills f cells D τ s') (hfill : f.Filled facts f' D τ)
    (hty : facts.Typed f) (ht : facts.Tracks f s) (hc : f.Coherent)
    (hi : f.flow.inst? i = some inst) {b : BlockId} (hg : Frame.Goes f s inst b) :
    Frame.Goes f' s' (inst.mapArgs τ) b := by
  cases hg with
  | jump => exact .jump
  | @branch op c w t e hw =>
    obtain ⟨o, ho⟩ := hc.flow.operand hi (List.mem_singleton.2 rfl)
    exact .branch (h.read_eq hfill hty ht ho hw (by simp))

theorem Frame.Fills.merges (h : s.Fills f cells D τ s') (hfill : f.Filled facts f' D τ)
    (hty : facts.Typed f) (ht : facts.Tracks f s) (hruled : f.Ruled cells) {b : BlockId}
    {xs : List InstId} (hent : Frame.Entered f s t b xs) {phi : InstId}
    (hphi : phi ∈ xs.takeWhile f.flow.isPhi) (hD : phi ∉ D) :
    ∃ v w e e', f'.flow.incoming? phi s'.block = .ok (some v) ∧ f'.flow.result? phi = some w ∧
      s'.read f' v = .ok e' ∧ t.values w = some e ∧ e.RefinedBy (f.tyOf w) e' := by
  obtain ⟨v, w, e, hv, hw, he, hset⟩ := hent.merged phi hphi
  obtain ⟨inst, hinst⟩ :=
    hruled.coherent.inst_of_mem hent.insts ((List.takeWhile_prefix _).subset hphi)
  have hedge := DataFlow.edge_of_incoming? hinst hv
  obtain ⟨o, ho⟩ := hruled.coherent.flow.operand hinst (Inst.arg_of_edge hedge)
  obtain ⟨e', he', hrefine⟩ := h.read hfill hty ht ho he
  have hmatch : Inst.Matches (fun v v' => v' = τ v) inst (inst.mapArgs τ) :=
    .of_mapArgs fun _ _ => rfl
  obtain ⟨v', hv', rfl⟩ := hmatch.incoming hinst (hfill.inst_ok hinst hD) hv
  have hresult : f'.flow.result? phi = some w := by
    rw [hfill.result?, if_neg hD]
    exact hw
  refine ⟨τ v, w, e, e', h.block ▸ hv', hresult, he', hset, ?_⟩
  have hrule := (hruled.types hinst).2
  cases inst with
  | phi op args preds =>
    rw [← Func.yieldTy_of_result hw, ← hrule v (Inst.arg_of_edge hedge)]
    exact hrefine
  | _ => cases hedge

/-- Both runs enter the block, and its phis merge something more defined. -/
theorem Frame.Fills.enter (h : s.Fills f cells D τ s') (hfill : f.Filled facts f' D τ)
    (hty : facts.Typed f) (ht : facts.Tracks f s) (hf : f.Regular entry) (hruled : f.Ruled cells)
    (hc' : f'.Coherent) {b : BlockId} {xs : List InstId} (hent : Frame.Entered f s t b xs) :
    ∃ t', s'.enter f' i b = .ok t' ∧ t.Fills f cells D τ t' := by
  obtain ⟨htake, hdrop⟩ := hf.filter_block hfill.isPhi hent.insts
  have hxs' := hfill.insts_ok hent.insts
  have hread : ∀ phi ∈ (xs.takeWhile f.flow.isPhi).filter (· ∉ D), ∃ v w e e',
      f'.flow.incoming? phi s'.block = .ok (some v) ∧ f'.flow.result? phi = some w ∧
      s'.read f' v = .ok e' ∧ t.values w = some e ∧ e.RefinedBy (f.tyOf w) e' := by
    intro phi hphi
    obtain ⟨hphi, hD⟩ := List.mem_filter.1 hphi
    exact h.merges hfill hty ht hruled hent hphi (by simpa using hD)
  have hmerged : ∀ phi ∈ (xs.takeWhile f.flow.isPhi).filter (· ∉ D),
      ∃ p, s'.merged f' s'.block phi = .ok p := by
    intro phi hphi
    obtain ⟨v, w, e, e', hv, hw, he', -⟩ := hread phi hphi
    exact ⟨(w, e'), Frame.merged_eq_ok.2 ⟨v, hv, hw, he'⟩⟩
  obtain ⟨ps, hps⟩ := mapM_exists hmerged
  have hok := Frame.enter_eq_ok (i := i).2 ⟨_, ps, hxs', by rw [htake]; exact hps, rfl⟩
  refine ⟨_, hok, ?_⟩
  obtain ⟨ys, hent'⟩ := Frame.enter_spec hc' hok
  have hys := hent'.insts
  rw [hxs'] at hys
  cases hys
  refine ⟨hent'.block.trans hent.block.symm, ?_, ?_, fun {v e} hτ hv => ?_, fun cell => ?_⟩
  · rw [hent'.rest, hent.rest, hdrop]
  · rw [hent'.activation, hent.activation, h.activation]
  · by_cases hphi : ∃ phi ∈ (xs.takeWhile f.flow.isPhi).filter (· ∉ D), f'.flow.result? phi = some v
    · obtain ⟨phi, hphi, hr⟩ := hphi
      obtain ⟨u, w, e₁, e', hu, hw, he', hset, hrefine⟩ := hread phi hphi
      cases hr.symm.trans hw
      cases hv.symm.trans hset
      obtain ⟨u', w', e'', hu', hw', he'', hset'⟩ := hent'.merged phi (by rw [htake]; exact hphi)
      cases hr.symm.trans hw'
      cases hu.symm.trans hu'
      cases he'.symm.trans he''
      exact ⟨e', hset', hrefine⟩
    · -- A phi that is gone merges into a value that was replaced.
      rw [hent.kept v] at hv
      · rw [hent'.kept v]
        · exact h.values hτ hv
        · intro phi hm hr
          rw [htake] at hm
          exact hphi ⟨phi, hm, hr⟩
      · intro phi hm hr
        by_cases hn : phi ∈ D
        · exact (hfill.gone phi hn).2 v hr hτ
        · refine hphi ⟨phi, List.mem_filter.2 ⟨hm, by simpa using hn⟩, ?_⟩
          rw [hfill.result?, if_neg hn]
          exact hr
  · rw [hent'.memory, hent.memory]
    exact h.memory cell

theorem Frame.Fills.set (h : s.Fills f cells D τ s') {r : ValueId} {d' : Datum}
    (hd : d.RefinedBy (f.tyOf r) d') (rest : List InstId) :
    ({ s with rest }.set r d).Fills f cells D τ
      ({ s' with rest := rest.filter (· ∉ D) }.set r d') where
  block := h.block
  rest := rfl
  activation := h.activation
  values {v e} hτ hv := by
    simp only [Frame.set] at hv ⊢
    by_cases hvr : v = r
    · rw [if_pos hvr] at hv ⊢
      cases hv
      exact ⟨d', rfl, hvr ▸ hd⟩
    · rw [if_neg hvr] at hv ⊢
      exact h.values hτ hv
  memory := h.memory

theorem Frame.Fills.skip (h : s.Fills f cells D τ s') {rest : List InstId}
    (hrest : s.rest = i :: rest) (hD : i ∈ D) {r : ValueId} (hr : τ r ≠ r) (d : Datum) :
    ({ s with rest }.set r d).Fills f cells D τ s' where
  block := h.block
  rest := by
    rw [h.rest, hrest, List.filter_cons_of_neg (by simpa using hD)]
    rfl
  activation := h.activation
  values {v e} hτ hv := by
    simp only [Frame.set] at hv
    split at hv
    · rename_i hvr
      exact absurd (hvr ▸ hτ) hr
    · exact h.values hτ hv
  memory := h.memory

theorem Frame.Fills.store (h : s.Fills f cells D τ s') {cell : Cell} {d' : Datum}
    (hd : d.RefinedBy (cells cell) d') (rest : List InstId) :
    ({ s with rest }.store cell d).Fills f cells D τ
      ({ s' with rest := rest.filter (· ∉ D) }.store cell d') where
  block := h.block
  rest := rfl
  activation := h.activation
  values := h.values
  memory c := by
    simp only [Frame.store]
    by_cases hc : c = cell
    · rw [if_pos hc, if_pos hc, hc]
      exact hd
    · rw [if_neg hc, if_neg hc]
      exact h.memory c

theorem Func.Filled.stays (hfill : f.Filled facts f' D τ) (hi : f.flow.inst? i = some inst)
    (heff : inst.op.hasSideEffects = true) : i ∉ D := by
  intro hD
  have hnone := (hfill.gone i hD).1
  rw [DataFlow.hasSideEffects, DataFlow.op?_eq_some hi, Option.any_some, heff] at hnone
  cases hnone

theorem Func.Filled.rest_ne (hfill : f.Filled facts f' D τ) (hf : f.Regular entry) {b : BlockId}
    {pre rest : List InstId} (hb : f.insts b = .ok (pre ++ rest)) (hne : rest ≠ []) :
    rest.filter (· ∉ D) ≠ [] := by
  have hsplit := List.dropLast_append_getLast hne
  have hmem := List.getLast_mem hne
  rw [← hsplit, ← List.append_assoc] at hb
  have hterm := (hf.terminator_iff hb).2 rfl
  obtain ⟨inst, hinst⟩ := DataFlow.inst_of_isTerminator hterm
  rw [DataFlow.isTerminator_of_inst hinst] at hterm
  have hstay := hfill.stays hinst (Opcode.hasSideEffects_of_terminator hterm)
  intro hnil
  exact List.filter_eq_nil_iff.1 hnil _ hmem (by simpa using hstay)

theorem Func.Filled.leads_iff (hfill : f.Filled facts f' D τ) (hf : f.Ended) {a b : BlockId} :
    f'.Leads a b ↔ f.Leads a b := by
  cases hxs : f.insts a with
  | error e =>
    have hxs' : f'.insts a = .error e := by
      rw [hfill.insts, hxs]
      rfl
    rw [Func.leads_iff, Func.leads_iff, hxs, hxs']
    simp
  | ok xs =>
    obtain ⟨front, t, rfl, hterm, -⟩ := hf hxs
    obtain ⟨inst, hinst⟩ := DataFlow.inst_of_isTerminator hterm
    rw [DataFlow.isTerminator_of_inst hinst] at hterm
    have hD : t ∉ D := hfill.stays hinst (Opcode.hasSideEffects_of_terminator hterm)
    have hxs' : f'.insts a = .ok (front.filter (· ∉ D) ++ [t]) := by
      rw [hfill.insts_ok hxs, List.filter_append, List.filter_singleton]
      simp [hD]
    rw [Func.leads_last_iff hxs hinst hterm,
      Func.leads_last_iff hxs' (hfill.inst_ok hinst hD) (by simpa using hterm), Inst.blocks_mapArgs]

theorem Func.Filled.start (hfill : f.Filled facts f' D τ) (he : f.entry = .ok entry)
    {args : List Datum} (hs : Frame.start f args = .ok s) :
    ∃ s', Frame.start f' args = .ok s' ∧ s.Fills f cells D τ s' := by
  obtain ⟨b, hb, hs⟩ := bind_eq_ok.1 hs
  obtain ⟨rest, hrest, hs⟩ := bind_eq_ok.1 hs
  cases hs
  cases he.symm.trans hb
  have hparams : f'.params = f.params := hfill.params
  refine ⟨_, bind_eq_ok.2 ⟨entry, hfill.alike.starts he,
    bind_eq_ok.2 ⟨_, hfill.insts_ok hrest, rfl⟩⟩, rfl, rfl, rfl,
    fun {v d} _ hv => ⟨d, ?_, .same d⟩, fun _ => .same _⟩
  rw [hparams]
  exact hv

/-- A frame of the function, as the facts foresee it and with data of their types, and one of what
is left of it. -/
structure Frame.Shadows (facts : Facts) (f : Func) (entry : BlockId) (cells : Cell → Ty)
    (D : List InstId) (τ : ValueId → ValueId) (s s' : Frame) : Prop where
  sits : s.Sits f (fun _ _ => True) entry
  tracks : facts.Tracks f s
  typed : s.Typed f cells
  fills : s.Fills f cells D τ s'

variable {spec : Propagation.CallSpec} (hw : Propagation.Workable f entry) (hf : f.Regular entry)
  (hruled : f.Ruled cells) (hclosed : Propagation.Closed f entry spec facts)
  (hfill : f.Filled facts f' D τ) (hc' : f'.Coherent)

include hw hf hruled hclosed hfill hc'

/-- What is left of the function takes the same step, unless the instruction is gone. -/
theorem Frame.Shadows.step (h : s.Shadows facts f entry cells D τ s') (hdiv : s.Divides f)
    (hstep : s.step f = .ok (.next t)) :
    t.Shadows facts f entry cells D τ s' ∨ ∃ t', s'.step f' = .ok (.next t') ∧
      (s'.rest.tail = [] → facts.taken s'.block t'.block = true) ∧
      t.Shadows facts f entry cells D τ t' := by
  have hty : facts.Typed f := hclosed.typed
  have htracks := h.tracks.step hw hclosed hstep
  have hsteps := hf.steps h.sits hstep fun _ => trivial
  have hsits := hf.sits_step h.sits hsteps
  have htyped := h.typed.step hruled hsteps
  obtain ⟨pre, hpre⟩ := h.sits.suffix
  have hleft : ∀ {i rest}, s.rest = i :: rest → rest ≠ [] → rest.filter (· ∉ D) ≠ [] := by
    intro i rest hrest hne
    rw [hrest, List.append_cons] at hpre
    exact hfill.rest_ne hf hpre hne
  have hnext : ∀ {i rest}, s.rest = i :: rest → i ∉ D → s'.rest = i :: rest.filter (· ∉ D) := by
    intro i rest hrest hD
    rw [h.fills.rest, hrest, List.filter_cons_of_pos (by simpa using hD)]
  cases hsteps with
  | @yields i rest inst v d hrest hne hi hv hg =>
    by_cases hD : i ∈ D
    · exact .inl ⟨hsits, htracks, htyped, h.fills.skip hrest hD ((hfill.gone i hD).2 v hv) d⟩
    · obtain ⟨d', hg', hrefine⟩ :=
        h.fills.gives hfill hty h.tracks hruled h.typed hdiv hrest hi hD hg
      have hv' : f'.flow.result? i = some v := by
        rw [hfill.result?, if_neg hD]
        exact hv
      refine .inr ⟨_, Frame.step_next_iff.2 (.yields (hnext hrest hD) (hfill.inst_ok hi hD) hv'
        hg'), fun htail => ?_, ?_⟩
      · rw [hnext hrest hD] at htail
        exact absurd htail (hleft hrest hne)
      · rw [Func.yieldTy_of_result hv] at hrefine
        exact ⟨hsits, htracks, htyped, h.fills.set hrefine rest⟩
  | @stores i rest x y cell d hrest hne hi hx hy =>
    have hD : i ∉ D := hfill.stays hi rfl
    obtain ⟨ox, hox⟩ := hruled.coherent.flow.operand hi (v := x) (by simp [Inst.args])
    obtain ⟨oy, hoy⟩ := hruled.coherent.flow.operand hi (v := y) (by simp [Inst.args])
    have hx' := h.fills.read_eq hfill hty h.tracks hox hx (by simp)
    obtain ⟨d', hy', hrefine⟩ := h.fills.read hfill hty h.tracks hoy hy
    refine .inr ⟨_, Frame.step_next_iff.2 (.stores (hnext hrest hD) (hfill.inst_ok hi hD) hx' hy'),
      fun htail => ?_, ?_⟩
    · rw [hnext hrest hD] at htail
      exact absurd htail (hleft hrest hne)
    · rw [← h.typed.ty_of_store hruled hi hx] at hrefine
      exact ⟨hsits, htracks, htyped, h.fills.store hrefine rest⟩
  | @enters i inst b xs t hrest hi hg hE hent =>
    have hterm := hf.goes_terminator hi hg
    rw [DataFlow.isTerminator_of_inst hi] at hterm
    have hD : i ∉ D := hfill.stays hi (Opcode.hasSideEffects_of_terminator hterm)
    have hg' := h.fills.goes hfill hty h.tracks hruled.coherent hi hg
    obtain ⟨t', ht', hfills⟩ := h.fills.enter (i := i) hfill hty h.tracks hf hruled hc' hent
    refine .inr ⟨t', Frame.step_next_iff.2 (.enters (hnext hrest hD) (hfill.inst_ok hi hD) hg' ht'),
      fun _ => ?_, hsits, htracks, htyped, hfills⟩
    rw [h.fills.block, hfills.block, hent.block]
    exact (h.tracks.settled hclosed hrest hi).goes (h.tracks.goes hg)

theorem Along.fill {s₀ : Frame} (hdiv : ∀ s, Reached f (fun _ _ => True) s₀ s → s.Divides f)
    (hr : Reached f (fun _ _ => True) s₀ s) (ha : Along f (fun _ _ => True) s d)
    (h : s.Shadows facts f entry cells D τ s') :
    Along f' (fun a b => facts.taken a b = true) s' d := by
  induction ha generalizing s' with
  | @done s d hdone =>
    obtain ⟨i, rest, x, hrest, hi, hx, hu⟩ := Frame.step_done_iff.1 hdone
    have hD : i ∉ D := hfill.stays hi rfl
    obtain ⟨o, ho⟩ := hruled.coherent.flow.operand hi (List.mem_singleton.2 rfl)
    have hx' := h.fills.read_eq hfill hclosed.typed h.tracks ho hx hu
    refine .done (Frame.step_done_iff.2 ⟨i, rest.filter (· ∉ D), τ x, ?_,
      hfill.inst_ok hi hD, hx', hu⟩)
    rw [h.fills.rest, hrest, List.filter_cons_of_pos (by simpa using hD)]
  | @next s t d hstep hE _ ih =>
    have hnext := hr.next hstep hE
    rcases h.step hw hf hruled hclosed hfill hc' (hdiv s hr) hstep with ht |
      ⟨t', hstep', htaken, ht⟩
    · exact ih hnext ht
    · exact .next hstep' htaken (ih hnext ht)

end Runs

theorem Reached.run {f : Func} {E : BlockId → BlockId → Prop} {s₀ s : Frame}
    (h : Reached f E s₀ s) :
    ∃ n, s₀.run f n = .ok (.next s) := by
  induction h with
  | start => exact ⟨0, rfl⟩
  | @next s t _ hstep _ ih =>
    obtain ⟨n, hn⟩ := ih
    refine ⟨n + 1, ?_⟩
    rw [Frame.run_add hn, Frame.run, hstep]
    rfl

end MiddleEnd
