import MiddleEnd.Proofs.Grafting
import MiddleEnd.Proofs.Pruning
import MiddleEnd.Transform.Preheaders

/-!
# What inserting a preheader leaves

The new block gets one phi for each phi of the header to which the blocks outside bring different
values, and a jump to the header. The phis of the header take from the new block what is merged
there, the blocks outside lead to the new block, and all else stays as it was.
-/

namespace MiddleEnd

open DataFlow (reroute)

namespace Func

/-- The instruction merges what a phi of the header takes from the blocks outside. -/
def Joins (f f' : Func) (header : BlockId) (outside : List BlockId) (k : InstId) : Prop :=
  ∃ xs phi inst e r, f.insts header = .ok xs ∧ phi ∈ xs ∧ f.flow.inst? phi = some inst ∧
    inst.op.isPhi = true ∧ e ∈ inst.edges ∧ e.2 ∈ outside ∧
    f'.flow.inst? k = some (inst.keepEdges fun p => decide (p ∈ outside)) ∧
    f'.flow.result? k = some r ∧ f'.flow.origin? r = some (.result (f.tyOf e.1) k)

/-- The value is what a phi takes from all blocks outside, or the result of one of the phis that
merge it. -/
def Gathers (f' : Func) (outside : List BlockId) (joins : List InstId) (inst : Inst) (v : ValueId) :
    Prop :=
  (∀ e ∈ inst.edges, e.2 ∈ outside → e.1 = v) ∨
    ∃ k ∈ joins, f'.flow.result? k = some v ∧
    f'.flow.inst? k = some (inst.keepEdges fun p => decide (p ∈ outside))

/-- Some phis of the header have been split and some blocks outside lead to the block in front. -/
structure Fronting (f f' : Func) (header front : BlockId) (outside : List BlockId)
    (split : List InstId) (turned : List BlockId) (joins tail : List InstId)
    (ρ : InstId → Inst → Inst) : Prop extends f.Grafted f' front (joins ++ tail) ρ where
  gathered : ∀ {phi inst}, phi ∈ split → f.flow.inst? phi = some inst →
    ∃ v, ρ phi inst = (inst.keepEdges fun p => decide (p ∉ outside)).addEdge v front ∧
    f'.Gathers outside joins inst v
  others_inst : ∀ {b xs i inst}, f.insts b = .ok xs → i ∈ xs →
    f.flow.inst? i = some inst → i ∉ split →
    ρ i inst = if b ∈ turned ∧
    inst.op.isTerminator = true then inst.mapBlocks (reroute header front) else inst
  joined : ∀ k ∈ joins, f.Joins f' header outside k
  jumps : ∀ k ∈ tail, f'.flow.inst? k = some (.jump .br header) ∧ f'.flow.result? k = none

variable {f c c' : Func} {header front : BlockId} {outside turned : List BlockId}
  {split joins tail : List InstId} {ρ : InstId → Inst → Inst} {k : InstId}
  {inst : Inst} {v : ValueId}

theorem Joins.extend (h : f.Joins c header outside k) (he : f.Extends c c')
    (hk : f.flow.inst? k = none) :
    f.Joins c' header outside k := by
  obtain ⟨xs, phi, inst, e, r, hxs, hphi, hi, hop, hedge, ho, hk', hr, hro⟩ := h
  exact ⟨xs, phi, inst, e, r, hxs, hphi, hi, hop, hedge, ho, he.inst? hk hk',
    (he.result? hk').trans hr, he.origin? hro⟩

theorem Gathers.extend (h : c.Gathers outside joins inst v) (he : f.Extends c c')
    (hjoins : ∀ k ∈ joins, f.flow.inst? k = none) {joins' : List InstId} (hsub : joins ⊆ joins') :
    c'.Gathers outside joins' inst v := by
  rcases h with h | ⟨k, hk, hr, hk'⟩
  · exact .inl h
  · exact .inr ⟨k, hsub hk, (he.result? hk').trans hr, he.inst? (hjoins k hk) hk'⟩

theorem Fronting.join_new (h : f.Fronting c header front outside split turned joins tail ρ)
    {k : InstId} (hk : k ∈ joins) :
    f.flow.inst? k = none := h.new k (List.mem_append_left _ hk)

theorem Fronting.insert (h : f.Fronting c header front outside split turned joins [] ρ)
    (hc : c'.Coherent) {ty : Ty} {v? : Option ValueId}
    (hins : c.Inserted c' k inst ty v? front joins []) (hk : f.Joins c' header outside k) :
    f.Fronting c' header front outside split turned (joins ++ [k]) [] ρ ∧ f.Extends c c' := by
  have hgraft := h.toGrafted
  rw [List.append_nil] at hgraft
  obtain ⟨hgraft', he⟩ := hgraft.insert hc hins
  refine ⟨⟨by rw [List.append_nil]; exact hgraft', fun hphi hi => ?_, h.others_inst,
    fun j hj => ?_, by simp⟩, he⟩
  · obtain ⟨v, hρ, hg⟩ := h.gathered hphi hi
    exact ⟨v, hρ, hg.extend he (fun j => h.join_new) (List.subset_append_left _ _)⟩
  · rcases List.mem_append.1 hj with hj | hj
    · exact (h.joined j hj).extend he (h.join_new hj)
    · exact List.mem_singleton.1 hj ▸ hk

theorem Fronting.close (h : f.Fronting c header front outside split turned joins [] ρ)
    (hc : c'.Coherent) {ty : Ty}
    (hins : c.Inserted c' k (.jump .br header) ty none front joins []) :
    f.Fronting c' header front outside split turned joins [k] ρ := by
  have hgraft := h.toGrafted
  rw [List.append_nil] at hgraft
  obtain ⟨hgraft', he⟩ := hgraft.insert hc hins
  refine ⟨hgraft', fun hphi hi => ?_, h.others_inst,
    fun j hj => (h.joined j hj).extend he (h.join_new hj), fun j hj => ?_⟩
  · obtain ⟨v, hρ, hg⟩ := h.gathered hphi hi
    exact ⟨v, hρ, hg.extend he (fun j => h.join_new) (List.Subset.refl _)⟩
  · rw [List.mem_singleton.1 hj, hins.grown.inst?, hins.grown.result?, if_pos rfl, if_pos rfl]
    exact ⟨rfl, rfl⟩

theorem Fronting.splitPhi (h : f.Fronting c header front outside split turned joins tail ρ)
    {phi : InstId} (hi : f.flow.inst? phi = some inst) (hsame : ρ phi inst = inst)
    (hv : c.Gathers outside joins inst v) {g : DataFlow} (hg : g.Exact)
    (hR : DataFlow.Rewired c.flow g fun j jnst =>
      if j = phi then (inst.keepEdges fun p => decide (p ∉ outside)).addEdge v front else jnst) :
    ∃ ρ', f.Fronting { c with flow := g } header front outside
      (split ++ [phi]) turned joins tail ρ' ∧
      ∀ i jnst, i ≠ phi → ρ' i jnst = ρ i jnst := by
  have hepoch : ({ c.flow with epoch := g.epoch } : DataFlow) = c.flow := by rw [hR.epoch]
  obtain ⟨hgraft, he⟩ := h.toGrafted.rewire hg (hepoch.symm ▸ hR) hi fun {j jnst} hj => if_neg hj
  refine ⟨_, ⟨hgraft, fun {psi pnst} hpsi hpi => ?_, fun {b xs i jnst} hxs hix hj hn => ?_,
    fun k hk => (h.joined k hk).extend he (h.join_new hk), fun k hk => ?_⟩,
    fun i jnst hne => if_neg hne⟩
  · by_cases hpp : psi = phi
    · subst hpp
      rw [hi] at hpi
      cases hpi
      refine ⟨v, ?_, hv.extend he (fun j => h.join_new) (List.Subset.refl _)⟩
      rw [if_pos rfl, if_pos rfl]
    · obtain ⟨w, hρ, hw⟩ :=
        h.gathered ((List.mem_append.1 hpsi).resolve_right fun hm =>
          hpp (List.mem_singleton.1 hm)) hpi
      refine ⟨w, ?_, hw.extend he (fun j => h.join_new) (List.Subset.refl _)⟩
      rw [if_neg hpp]
      exact hρ
  · rw [List.mem_append, not_or, List.mem_singleton] at hn
    rw [if_neg hn.2]
    exact h.others_inst hxs hix hj hn.1
  · obtain ⟨hk', hr⟩ := h.jumps k hk
    exact ⟨he.inst? (h.new k (List.mem_append_right _ hk)) hk', (he.result? hk').trans hr⟩

/-- A block outside leads to the block in front. -/
theorem Fronting.turn (h : f.Fronting c header front outside split turned joins tail ρ)
    (hf : f.Coherent) {source : BlockId} {pre : List InstId} {term : InstId}
    (hxs : f.insts source = .ok (pre ++ [term])) (honly : ∀ i ∈ pre, f.flow.isTerminator i = false)
    (hi : f.flow.inst? term = some inst) (hterm : inst.op.isTerminator = true)
    (hphis : ∀ i ∈ split, f.flow.isPhi i = true) (hnot : source ∉ turned) {g : DataFlow}
    (hg : g.Exact) (hR : DataFlow.Rewired { c.flow with epoch := g.epoch } g fun j jnst =>
      if j = term then inst.mapBlocks (reroute header front) else jnst) :
    ∃ ρ', f.Fronting { c with flow := g } header front outside split (turned ++ [source])
      joins tail ρ' := by
  obtain ⟨hgraft, he⟩ := h.toGrafted.rewire hg hR hi fun {j jnst} hj => if_neg hj
  have hout : term ∉ split := fun hm => by
    have := not_terminator_of_phi (hphis term hm)
    rw [DataFlow.isTerminator_of_inst hi, hterm] at this
    cases this
  refine ⟨_, hgraft, fun {psi pnst} hpsi hpi => ?_, fun {b xs i jnst} hxs' hix hj hn => ?_,
    fun k hk => (h.joined k hk).extend he (h.join_new hk), fun k hk => ?_⟩
  · obtain ⟨w, hρ, hw⟩ := h.gathered hpsi hpi
    have hne : psi ≠ term := by
      rintro rfl
      exact hout hpsi
    refine ⟨w, ?_, hw.extend he (fun j => h.join_new) (List.Subset.refl _)⟩
    rw [if_neg hne]
    exact hρ
  · by_cases hit : i = term
    · subst hit
      rw [hi] at hj
      cases hj
      obtain rfl := hf.layout.one_block hxs' hxs hix (List.mem_append_right _ List.mem_cons_self)
      rw [if_pos rfl, if_pos rfl, if_pos ⟨List.mem_append_right _ List.mem_cons_self, hterm⟩]
    · rw [if_neg hit, h.others_inst hxs' hix hj hn]
      by_cases hb : b = source
      · -- The terminator is the only one in its block.
        subst hb
        rw [hxs] at hxs'
        cases hxs'
        have hplain : jnst.op.isTerminator = false := by
          rw [← DataFlow.isTerminator_of_inst hj]
          exact honly i ((List.mem_append.1 hix).resolve_right fun hm =>
            hit (List.mem_singleton.1 hm))
        rw [if_neg fun hn => (Bool.eq_false_iff.1 hplain) hn.2,
          if_neg fun hn => (Bool.eq_false_iff.1 hplain) hn.2]
      · have hiff : b ∈ turned ++ [source] ↔ b ∈ turned := by
          rw [List.mem_append, List.mem_singleton]
          exact or_iff_left hb
        simp only [hiff]
  · obtain ⟨hk', hr⟩ := h.jumps k hk
    exact ⟨he.inst? (h.new k (List.mem_append_right _ hk)) hk', (he.result? hk').trans hr⟩

end Func

namespace Preheaders

variable {f : Func} {b : Builder} {header front : BlockId} {outside turned : List BlockId}
  {split joins : List InstId} {ρ : InstId → Inst → Inst} {phi : InstId} {inst : Inst}
  {xs : List InstId}

/-- What a phi of the header has to look like. -/
structure Splits (f : Func) (header : BlockId) (outside : List BlockId) (phi : InstId)
    (inst : Inst) : Prop where
  home : ∃ xs, f.insts header = .ok xs ∧ phi ∈ xs
  here : f.flow.inst? phi = some inst
  isPhi : inst.op.isPhi = true
  form : ∃ args preds, inst = .phi .phi args preds
  entered : ∃ e ∈ inst.edges, e.2 ∈ outside
  typed : ∀ e ∈ inst.edges, f.tyOf e.1 ≠ .void

/-- The values from outside are merged in front unless they are the same. -/
theorem gather_ok (hf : f.Coherent)
    (h : f.Fronting b.func header front outside split turned joins [] ρ)
    (hs : Splits f header outside phi inst) {e : ValueId × BlockId} {es : List (ValueId × BlockId)}
    (hes : inst.edges.filter (fun e => decide (e.2 ∈ outside)) = e :: es) :
    ∃ v b' joins', (if (e :: es).all (fun e' => decide (e'.1 = e.1)) then pure (e.1, b) else do
        let ty ← b.flow.ty e.1
        (b.goTo (.append front)).phiTyped none ty ((e :: es).map (·.1)) ((e :: es).map (·.2)) :
          Checked _) = .ok (v, b') ∧
      f.Fronting b'.func header front outside split turned joins' [] ρ ∧
      b'.func.Gathers outside joins' inst v ∧
      ∃ o, b'.flow.origin? v = some o := by
  have hmem : ∀ {e'}, e' ∈ e :: es ↔ e' ∈ inst.edges ∧ e'.2 ∈ outside := fun {e'} => by
    rw [← hes, List.mem_filter, decide_eq_true_eq]
  obtain ⟨he, heo⟩ := hmem.1 List.mem_cons_self
  have hknown : ∀ {e'}, e' ∈ e :: es → ∃ o, f.flow.origin? e'.1 = some o := fun {e'} he' =>
    hf.flow.operand hs.here (Inst.arg_of_edge (hmem.1 he').1)
  obtain ⟨o, hov⟩ := hknown List.mem_cons_self
  by_cases hall : (e :: es).all (fun e' => decide (e'.1 = e.1)) = true
  · refine ⟨e.1, b, joins, if_pos hall, h, .inl fun e' he' ho' => ?_, o, h.origin? hov⟩
    exact of_decide_eq_true (List.all_eq_true.1 hall e' (hmem.2 ⟨he', ho'⟩))
  · have hty : b.flow.ty e.1 = .ok (f.tyOf e.1) := by
      have ho : b.flow.origin? e.1 = some o := h.origin? hov
      rw [DataFlow.ty_of_origin ho, Func.tyOf_eq hov]
    obtain ⟨args, preds, rfl⟩ := hs.form
    have hkept : Inst.phi .phi ((e :: es).map (·.1)) ((e :: es).map (·.2)) =
        (Inst.phi .phi args preds).keepEdges fun p => decide (p ∈ outside) := by
      rw [← hes]
      rfl
    have hhere : b.func.insts front = .ok joins := by
      rw [h.here, List.append_nil]
    obtain ⟨k, b', v?, hins, hcoh, hnew⟩ := Builder.append_ok h.coherent hhere
      (.phi .phi ((e :: es).map (·.1)) ((e :: es).map (·.2))) (f.tyOf e.1)
      (fun v hv => by
        obtain ⟨e', he', rfl⟩ := List.mem_map.1 hv
        obtain ⟨o', ho'⟩ := hknown he'
        exact ⟨o', h.origin? ho'⟩)
      (fun _ _ _ heq => by
        cases heq
        rw [List.length_map, List.length_map])
    obtain ⟨r, rfl⟩ : ∃ r, v? = some r := by
      cases v? with
      | some r => exact ⟨r, rfl⟩
      | none => exact absurd (hnew.grown.yields.1 rfl) (hs.typed e he)
    have hres : b'.flow.result? k = some r := by
      rw [Builder.flow, hnew.grown.result?, if_pos rfl]
    have hor : b'.flow.origin? r = some (.result (f.tyOf e.1) k) := by
      rw [Builder.flow, hnew.grown.origin?, if_pos rfl]
    have hk : b'.func.flow.inst? k = some ((Inst.phi .phi args preds).keepEdges fun p =>
        decide (p ∈ outside)) := by
      rw [hnew.grown.inst?, if_pos rfl, hkept]
    obtain ⟨xs, hxs, hphi⟩ := hs.home
    obtain ⟨h', -⟩ := h.insert hcoh hnew ⟨xs, phi, _, e, r, hxs, hphi, hs.here, rfl, he, heo,
      hk, hres, hor⟩
    refine ⟨r, b', joins ++ [k], ?_, h', .inr ⟨k, List.mem_append_right _ List.mem_cons_self,
      hres, hk⟩, _, hor⟩
    rw [if_neg hall, hty, ok_bind]
    unfold Builder.phiTyped Builder.emitValue Builder.emit
    rw [if_neg (by rw [List.length_map, List.length_map]; exact fun hn => hn rfl), hins, ok_bind]
    dsimp only
    rw [ok_bind, DataFlow.result_eq_ok.2 hres]
    rfl

theorem splitPhi_ok (hf : f.Coherent)
    (h : f.Fronting b.func header front outside split [] joins [] ρ)
    (hs : Splits f header outside phi inst) (hn : phi ∉ split) :
    ∃ b' joins' ρ', splitPhi front outside b phi = .ok b' ∧
      f.Fronting b'.func header front outside (split ++ [phi]) [] joins' [] ρ' := by
  obtain ⟨xs, hxs, hmem⟩ := hs.home
  have hsame : ρ phi inst = inst := by
    rw [h.others_inst hxs hmem hs.here hn, if_neg fun hn => absurd hn.1 List.not_mem_nil]
  obtain ⟨e, es, hes⟩ : ∃ e es, inst.edges.filter (fun e => decide (e.2 ∈ outside)) = e :: es := by
    obtain ⟨e, he, ho⟩ := hs.entered
    have hmem : e ∈ inst.edges.filter (fun e => decide (e.2 ∈ outside)) :=
      List.mem_filter.2 ⟨he, decide_eq_true ho⟩
    exact List.exists_cons_of_ne_nil fun hnil => by
      rw [hnil] at hmem
      cases hmem
  obtain ⟨v, c, joins', hc, hfront, hgathers, o, ho⟩ := gather_ok hf h hs hes
  have hphi : ∃ op args preds, inst = .phi op args preds := by
    obtain ⟨args, preds, he⟩ := hs.form
    exact ⟨_, args, preds, he⟩
  have hb : b.flow.inst? phi = some inst := by
    rw [Builder.flow, h.inst? hs.here, hsame]
  have hi : c.flow.inst? phi = some inst := by
    rw [Builder.flow, hfront.inst? hs.here, hsame]
  obtain ⟨g₁, hg₁, hexact₁, hR₁⟩ := DataFlow.removeEdges_ok hfront.coherent.flow hi hphi (e :: es)
  -- The blocks whose edges go are the blocks outside.
  have hkept : (inst.keepEdges fun p => decide (p ∉ (e :: es).map (·.2))) = inst.keepEdges fun p =>
      decide (p ∉ outside) := by
    refine Inst.keepEdges_congr fun e' he' => decide_eq_decide.2 (not_congr ?_)
    rw [← hes, List.mem_map]
    constructor
    · rintro ⟨e'', he'', heq⟩
      rw [← heq]
      exact of_decide_eq_true (List.mem_filter.1 he'').2
    · exact fun ho' => ⟨e', List.mem_filter.2 ⟨he', decide_eq_true ho'⟩, rfl⟩
  rw [hkept] at hR₁
  obtain ⟨op, args, preds, hform⟩ :
      ∃ op args preds, (inst.keepEdges fun p => decide (p ∉ outside)) = .phi op args preds :=
    Inst.keepEdges_phi hphi
  have hi₁ : g₁.inst? phi = some (.phi op args preds) := by
    rw [hR₁.inst?, show c.func.flow.inst? phi = some inst from hi, Option.map_some,
      if_pos rfl, hform]
  obtain ⟨g₂, hg₂, hexact₂, hR₂⟩ := DataFlow.addIncoming_ok hexact₁ front hi₁ (hR₁.origin? ho)
  obtain ⟨ρ', hfront', -⟩ :=
    hfront.splitPhi hs.here hsame hgathers hexact₂ ((hR₁.trans hR₂).congr fun j jnst _ => by
      by_cases hj : j = phi
      · rw [if_pos hj, if_pos hj, hform]
        rfl
      · rw [if_neg hj, if_neg hj, if_neg hj])
  refine ⟨c.withFlow g₂, joins', ρ', ?_, hfront'⟩
  unfold splitPhi
  rw [DataFlow.inst_eq_ok.2 hb, ok_bind]
  dsimp only
  rw [hes, Checked.nth]
  dsimp only [List.getElem?_cons_zero]
  rw [ofOption_some, ok_bind]
  have hrest : (do
      let flow ← (e :: es).foldlM (fun g e => do return (← g.removeIncoming phi e.2).2) c.flow
      return c.withFlow (← flow.addIncoming phi v front) :
        Checked Builder) = .ok (c.withFlow g₂) := by
    erw [hg₁]
    rw [ok_bind, hg₂]
    rfl
  by_cases hall : (e :: es).all (fun e' => decide (e'.1 = e.1)) = true
  · rw [if_pos hall] at hc
    cases hc
    rw [if_pos hall]
    exact hrest
  · rw [if_neg hall] at hc
    obtain ⟨ty, hty, hc⟩ := bind_eq_ok.1 hc
    rw [if_neg hall, hty, ok_bind, hc]
    exact hrest

theorem splitPhis_ok (hf : f.Coherent) {phis : List InstId} (hn : phis.Nodup)
    (h : f.Fronting b.func header front outside [] [] [] [] ρ)
    (hs : ∀ phi ∈ phis, ∃ inst, Splits f header outside phi inst) :
    ∃ c joins ρ', phis.foldlM (splitPhi front outside) b = .ok c ∧
      f.Fronting c.func header front outside phis [] joins [] ρ' := by
  obtain ⟨c, hc, joins, ρ', hfront⟩ :=
    foldlM_yields (f := splitPhi front outside) (l := phis) (b := b) (fun pre (c : Builder) =>
      ∃ joins ρ', f.Fronting c.func header front outside pre [] joins [] ρ') ⟨[], ρ, h⟩ <| by
      rintro pre phi post c hsplit ⟨joins, ρ', hfront⟩
      subst hsplit
      obtain ⟨inst, hphi⟩ := hs phi (List.mem_append_right _ List.mem_cons_self)
      obtain ⟨d, joins', ρ'', hd, hfront'⟩ := splitPhi_ok hf hfront hphi fun hm =>
        (List.nodup_append.1 hn).2.2 phi hm phi List.mem_cons_self rfl
      exact ⟨d, hd, joins', ρ'', hfront'⟩
  exact ⟨c, joins, ρ', hc, hfront⟩

theorem redirect_ok (hf : f.Coherent) (he : f.Ended)
    (h : f.Fronting b.func header front outside split turned joins [] ρ)
    (hphis : ∀ i ∈ split, f.flow.isPhi i = true) (hh : header ∈ f.blocks) {source : BlockId}
    (hl : f.Leads source header) (hn : source ∉ turned) :
    ∃ c ρ', redirect header front b source = .ok c ∧
      f.Fronting c.func header front outside split (turned ++ [source]) joins [] ρ' := by
  obtain ⟨xs, hxs⟩ := Layout.mem_blocks_iff.1 hl.mem_blocks
  obtain ⟨pre, term, rfl, hterm, honly⟩ := he hxs
  obtain ⟨inst, hi⟩ := DataFlow.inst_of_isTerminator hterm
  have hop : inst.op.isTerminator = true := (DataFlow.isTerminator_of_inst hi).symm.trans hterm
  have hnot : term ∉ split := fun hm => by
    rw [Func.not_terminator_of_phi (hphis term hm)] at hterm
    cases hterm
  have hsame : ρ term inst = inst := by
    rw [h.others_inst hxs (List.mem_append_right _ List.mem_cons_self) hi hnot,
      if_neg fun hn' => hn hn'.1]
  have hi' : b.flow.inst? term = some inst := by
    rw [Builder.flow, h.inst? hi, hsame]
  have hsource : source ≠ front := fun he => h.fresh (he ▸ hl.mem_blocks)
  have hxs' : b.func.insts source = .ok (pre ++ [term]) := (h.others hsource).trans hxs
  have hne : header ≠ front := fun he => h.fresh (he ▸ hh)
  obtain ⟨n, g, hg, hexact, hR, -⟩ :=
    DataFlow.replaceBlockWithin_ok h.coherent.flow hne hi' ((Func.leads_last_iff hxs hi hop).1 hl)
  obtain ⟨ρ', hfront⟩ := h.turn hf hxs honly hi hop hphis hn hexact hR
  refine ⟨b.withFlow g, ρ', ?_, hfront⟩
  unfold redirect
  rw [Func.terminator?_last hxs' ((DataFlow.isTerminator_of_inst hi').trans hop), ok_bind]
  dsimp only
  rw [show b.flow.replaceBlockWithin header front term = _ from hg]
  rfl

theorem redirects_ok (hf : f.Coherent) (he : f.Ended)
    (h : f.Fronting b.func header front outside split [] joins [] ρ)
    (hphis : ∀ i ∈ split, f.flow.isPhi i = true) (hh : header ∈ f.blocks) (hn : outside.Nodup)
    (hl : ∀ a ∈ outside, f.Leads a header) :
    ∃ c ρ', outside.foldlM (redirect header front) b = .ok c ∧
      f.Fronting c.func header front outside split outside joins [] ρ' := by
  obtain ⟨c, hc, ρ', hfront⟩ := foldlM_yields (f := redirect header front) (l := outside) (b := b)
    (fun pre (c : Builder) => ∃ ρ', f.Fronting c.func header front outside split pre joins []
    ρ') ⟨ρ, h⟩ <| by
      rintro pre source post c hsplit ⟨ρ', hfront⟩
      have hmem : source ∈ outside := hsplit ▸ List.mem_append_right _ List.mem_cons_self
      obtain ⟨d, ρ'', hd, hfront'⟩ :=
        redirect_ok hf he hfront hphis hh (hl source hmem) fun hm => by
          rw [hsplit] at hn
          exact (List.nodup_append.1 hn).2.2 source hm source List.mem_cons_self rfl
      exact ⟨d, hd, ρ'', hfront'⟩
  exact ⟨c, ρ', hc, hfront⟩

theorem fronting_of_grafted {f' : Func} (h : f.Grafted f' front [] fun _ inst => inst) :
    f.Fronting f' header front outside [] [] [] [] fun _ inst => inst := by
  refine ⟨h, fun {phi inst} hphi => ?_, fun {b xs i inst} _ _ _ _ => (if_neg fun hn => ?_).symm,
    fun k hk => ?_, fun k hk => ?_⟩
  · cases hphi
  · cases hn.1
  · cases hk
  · cases hk

section Insert

variable {entry : BlockId} (hf : b.func.Formed entry) (ht : b.func.Typed)
  (hxs : b.func.insts header = .ok xs)
  (hyields : ∀ i ∈ xs, b.flow.isPhi i = true → ∃ r, b.flow.result? i = some r)
  (hl : ∀ a ∈ outside, b.func.Leads a header) (hsome : ∃ a, a ∈ outside)

include hf ht hxs hyields hl hsome

theorem splits_of_phi (hphi : phi ∈ xs) (hisPhi : b.flow.isPhi phi = true) :
    ∃ inst, Splits b.func header outside phi inst := by
  have hcoh := hf.coherent
  obtain ⟨inst, hinst⟩ := hcoh.inst_of_mem hxs hphi
  have hop : inst.op.isPhi = true := (DataFlow.isPhi_of_inst hinst).symm.trans hisPhi
  obtain ⟨args, preds, rfl⟩ := Verify.phi_of_form (hf.forms hinst) hop
  refine ⟨_, ⟨xs, hxs, hphi⟩, hinst, hop, ⟨args, preds, rfl⟩, ?_, fun e he => ?_⟩
  · obtain ⟨a, ha⟩ := hsome
    have hpred := ((hf.shape.phi_edges hxs hphi hisPhi hinst).2 a).2 (hl a ha)
    rw [← (hcoh.flow.even hinst).blocks ⟨_, args, preds, rfl⟩] at hpred
    obtain ⟨e, he, rfl⟩ := List.mem_map.1 hpred
    exact ⟨e, he, ha⟩
  · obtain ⟨r, hr⟩ := hyields phi hphi hisPhi
    obtain ⟨ty, ho, hne⟩ := hcoh.flow.result_origin hr
    rw [ht hinst e.1 (Inst.arg_of_edge he), Func.yieldTy, show b.func.flow.result? phi = _ from hr,
      Option.map_some, Option.getD_some, Func.tyOf_eq ho]
    exact hne

/-- Once the block in front is there, filling it and leading the blocks outside to it goes
through. -/
theorem fill_yields {b₁ : Builder} (hgraft : b.func.Grafted b₁.func front [] fun _ inst => inst)
    (hn : outside.Nodup) (line : Unit → Checked String) :
    (do
      Run.debug line
      let phis ← b₁.func.phis header
      let b ← (phis.foldlM (splitPhi front outside) b₁ : Checked Builder)
      let b ← (outside.foldlM (redirect header front) b : Checked Builder)
      let (_, b) ← (b.goTo (.append front)).br none header
      return (front, b) : Run (BlockId × Builder)).Yields fun r => ∃ joins k ρ,
        b.func.Fronting r.2.func header r.1 outside
          (xs.takeWhile b.flow.isPhi) outside joins [k] ρ := by
  have hcoh := hf.coherent
  have hh : header ∈ b.func.blocks := Layout.mem_blocks_iff.2 ⟨xs, hxs⟩
  have hhf : header ≠ front := fun he => hgraft.fresh (he ▸ hh)
  refine (Run.yields_log (P := fun _ => True) trivial).bind fun _ _ => ?_
  have hisPhi : ∀ i ∈ xs, b₁.flow.isPhi i = b.flow.isPhi i := fun i hi => by
    obtain ⟨inst, hinst⟩ := hcoh.inst_of_mem hxs hi
    rw [DataFlow.isPhi_of_inst (show b.flow.inst? i = some inst from hinst),
      DataFlow.isPhi_of_inst (show b₁.flow.inst? i = some inst from hgraft.inst? hinst)]
  have hphis : b₁.func.phis header = .ok (xs.takeWhile b.flow.isPhi) := by
    have hsame := Func.takeWhile_map_of (g := id) hisPhi
    rw [List.map_id, List.map_id] at hsame
    unfold Func.phis
    rw [(hgraft.others hhf).trans hxs, ok_bind]
    exact congrArg Except.ok hsame
  refine (Run.yields_lift ⟨_, hphis, rfl⟩).bind ?_
  rintro _ rfl
  have hall : ∀ i ∈ xs.takeWhile b.flow.isPhi, b.flow.isPhi i = true :=
    List.all_eq_true.1 List.all_takeWhile
  obtain ⟨b₂, joins, ρ₂, hb₂, hfront₂⟩ := splitPhis_ok hcoh
    ((hcoh.layout.insts_nodup hxs).sublist (List.takeWhile_sublist _)) (fronting_of_grafted hgraft)
    fun phi hphi =>
      splits_of_phi hf ht hxs hyields hl hsome ((List.takeWhile_prefix _).subset hphi)
        (hall phi hphi)
  refine (Run.yields_lift ⟨_, hb₂, rfl⟩).bind ?_
  rintro _ rfl
  obtain ⟨b₃, ρ₃, hb₃, hfront₃⟩ := redirects_ok hcoh hf.shape.ended hfront₂ hall hh hn hl
  refine (Run.yields_lift ⟨_, hb₃, rfl⟩).bind ?_
  rintro _ rfl
  have hhere : b₃.func.insts front = .ok joins := by
    rw [hfront₃.here, List.append_nil]
  obtain ⟨k, b₄, v?, hins, hcoh₄, hnew⟩ :=
    Builder.append_ok hfront₃.coherent hhere (.jump .br header) .void (fun v hv => by cases hv)
      (fun _ _ _ he => by cases he)
  obtain rfl := hnew.grown.yields.2 rfl
  have hbr : (b₃.goTo (.append front)).br none header = .ok (k, b₄) := by
    unfold Builder.br Builder.emit
    rw [hins]
    rfl
  refine (Run.yields_lift ⟨_, hbr, rfl⟩).bind ?_
  rintro _ rfl
  exact Run.yields_pure ⟨joins, k, ρ₃, hfront₃.close hcoh₄ hnew⟩

theorem insertPreheader_yields (hn : outside.Nodup) :
    (insertPreheader b header outside).Yields fun r => ∃ joins k ρ,
      b.func.Fronting r.2.func header r.1 outside
        (xs.takeWhile b.flow.isPhi) outside joins [k] ρ := by
  have hh : header ∈ b.func.blocks := Layout.mem_blocks_iff.2 ⟨xs, hxs⟩
  obtain ⟨info, hinfo⟩ := Table.contains_iff.1 ((hf.coherent.known header).1 hh)
  have hname : b.func.blockName? header = .ok info.name? := by
    unfold Func.blockName? Table.get
    rw [hinfo]
    rfl
  obtain ⟨row, hrow, -⟩ := Layout.insts_eq_ok.1 hxs
  have hprev : b.func.layout.prevBlock? header = .ok (preceding header b.func.layout.blocks) := by
    unfold Layout.prevBlock? Layout.row
    rw [hrow]
    rfl
  unfold insertPreheader
  refine (Run.yields_lift ⟨_, hname, rfl⟩).bind ?_
  rintro _ rfl
  refine (Run.yields_lift ⟨_, hprev, rfl⟩).bind ?_
  rintro _ rfl
  cases hp : preceding header b.func.layout.blocks with
  | none =>
    obtain ⟨front, b₁, hadd, hgraft⟩ := Builder.addBlock_grafts hf.coherent _
    refine (Run.yields_lift ⟨_, hadd, rfl⟩).bind ?_
    rintro _ rfl
    exact fill_yields hf ht hxs hyields hl hsome hgraft hn _
  | some prev =>
    obtain ⟨front, b₁, hadd, hgraft⟩ :=
      Builder.addBlockAfter_grafts hf.coherent _
        (mem_of_preceding hf.coherent.layout.blocks_nodup hp).1
    refine (Run.yields_lift ⟨_, hadd, rfl⟩).bind ?_
    rintro _ rfl
    exact fill_yields hf ht hxs hyields hl hsome hgraft hn _

end Insert

end Preheaders

end MiddleEnd
