import MiddleEnd.Proofs.Phis
import MiddleEnd.Proofs.UnreachableBlocks

/-!
# Trivial phis

A phi that merges a single value apart from itself is that value, which is there wherever the phi
is. The phi gives way to it and goes. That may make other phis trivial, which are looked at in turn.
-/

namespace MiddleEnd

namespace Func

/-- All blocks of the function are reached from the entry. -/
structure Trim (f : Func) (entry : BlockId) : Prop extends f.Neat entry where
  reached : ∀ b ∈ f.blocks, Connects f.Leads entry b

variable {f f' : Func} {entry b : BlockId} {D : List InstId} {g : DataFlow} {xs : List InstId}
  {u : InstId} {inst : Inst} {v : ValueId}

theorem Trim.not_stranded (h : f.Trim entry) (v : ValueId) : ¬ f.Stranded entry v := by
  rintro ⟨-, -, home, xs, -, hxs, -, hn⟩
  exact hn (h.reached home (Layout.mem_blocks_iff.2 ⟨xs, hxs⟩))

theorem Trim.reached_insts (h : f.Trim entry) (hxs : f.insts b = .ok xs) :
    Connects f.Leads entry b :=
  h.reached b (Layout.mem_blocks_iff.2 ⟨xs, hxs⟩)

theorem Trim.arg_avail (h : f.Trim entry) {pre post : List InstId}
    (hxs : f.insts b = .ok (pre ++ u :: post)) (hu : f.flow.inst? u = some inst)
    (hop : inst.op.isPhi = false) (hv : v ∈ inst.args) :
    f.Avail f.Leads entry b (u :: post) v :=
  (h.dominated.body (h.reached_insts hxs) hxs hu hop hv).resolve_right (h.not_stranded v)

theorem Trim.edge_avail (h : f.Trim entry) {p : BlockId} (hxs : f.insts b = .ok xs) (hu : u ∈ xs)
    (hi : f.flow.inst? u = some inst) (hop : inst.op.isPhi = true) (he : (v, p) ∈ inst.edges) :
    f.Avail f.Leads entry p [] v := by
  have hl := ((h.shape.phi_edges hxs hu ((DataFlow.isPhi_of_inst hi).trans hop) hi).2 p).1
    (Inst.block_of_edge he)
  exact (h.dominated.phis (h.reached_insts hxs) hxs hu hi hop he
    (h.reached p hl.mem_blocks)).resolve_right (h.not_stranded v)

theorem Trim.phi_yields (h : f.Trim entry) (hxs : f.insts b = .ok xs) (hu : u ∈ xs)
    (hphi : f.flow.isPhi u = true) :
    ∃ r, f.flow.result? u = some r := h.phis (h.reached_insts hxs) hxs hu hphi

theorem Trim.reword (h : f.Trim entry) (hr : f.Reworded (f.Fits entry g) g) :
    ({ f with flow := g } : Func).Trim entry where
  toNeat := by
    refine h.of_leads hr.leads_eq (hr.formed h.toFormed) (hr.types h.toFormed h.typed)
      (hr.dominated h.toFormed h.dominated) (fun {b xs i} hxs hi hphi => ⟨xs, hxs, hi, ?_⟩)
      (fun {i} hterm => ?_) fun {i} _ _ => hr.result? i
    · rwa [show ({ f with flow := g } : Func).flow.isPhi i = _ from hr.isPhi i] at hphi
    · rwa [show ({ f with flow := g } : Func).flow.isTerminator i = _ from
        hr.isTerminator i] at hterm
  reached b hb := hr.leads_eq ▸ h.reached b hb

theorem Trim.thin (h : f.Trim entry) (ht : f.Thinned f' D) (hd : f.Idle D) (hc : f'.Coherent) :
    f'.Trim entry where
  toNeat := h.toNeat.thin ht hd hc
  reached b hb := ht.leads_eq hd h.shape ▸ h.reached b (show b ∈ f.layout.blocks from
    ht.alike.blocks ▸ hb)

theorem Trim.phi_merges (h : f.Trim entry) (hxs : f.insts b = .ok xs) (hphi : u ∈ xs)
    (hi : f.flow.inst? u = some inst) (hop : inst.op.isPhi = true) {r : ValueId}
    (hr : f.flow.result? u = some r) : ∃ v ∈ inst.args, v ≠ r := by
  refine Classical.byContradiction fun hn => ?_
  have hall : ∀ v ∈ inst.args, v = r := fun v hv => Classical.byContradiction fun hne =>
    hn ⟨v, hv, hne⟩
  have hhead := h.shape.mem_phis hxs hphi ((DataFlow.isPhi_of_inst hi).trans hop)
  obtain ⟨ty, ho, -⟩ := h.coherent.flow.result_origin hr
  refine (h.single_guards hxs hhead hr (h.reached_insts hxs) (fun {p} _ hl => .inl ?_) ho
    hxs hphi).1 rfl
  obtain ⟨x, hedge⟩ := h.shape.edge_of_leads h.coherent hxs hphi hi (h.forms hi) hop hl
  exact hall x (Inst.arg_of_edge hedge) ▸ h.edge_avail hxs hphi hi hop hedge

end Func

/-- A value has taken the place of a phi. -/
structure TrivialPhi.Replaced (b c : Builder) (phi : InstId) (r v : ValueId) : Prop where
  inst? : ∀ i, c.flow.inst? i = if i = phi then none else (b.flow.inst? i).map
    (·.mapArgs (DataFlow.swap r v))
  result? : ∀ {i}, i ≠ phi → c.flow.result? i = b.flow.result? i
  size : c.flow.insts.size + 1 = b.flow.insts.size

namespace Builder

variable {b : Builder} {entry home : BlockId} {xs : List InstId} {phi : InstId} {inst : Inst}
  {r v : ValueId}

/-- A phi has given way to a value: first what uses it, then the phi itself. -/
structure PhiSwapped (b : Builder) (phi : InstId) (r v : ValueId) (g : DataFlow) (d : Builder) :
    Prop extends TrivialPhi.Replaced b d phi r v where
  between : (b.withFlow g).func.Coherent
  rewired : DataFlow.Rewired b.flow g fun _ inst => inst.mapArgs (DataFlow.swap r v)
  coherent : d.func.Coherent
  shrunk : DataFlow.Shrunk g d.flow phi
  insts : ∀ c, d.func.insts c = (b.func.insts c).map (·.filter (· ≠ phi))
  thinned : (b.withFlow g).func.Thinned d.func [phi]
  idle : (b.withFlow g).func.Idle [phi]

theorem swapPhi_ok {g : DataFlow} {o : ValueDef} (hc : b.func.Coherent) (hg : g.Exact)
    (hR : DataFlow.Rewired b.flow g fun _ inst => inst) (hi : b.flow.inst? phi = some inst)
    (hop : inst.op.isPhi = true) (hr : b.flow.result? phi = some r) (hv : g.origin? v = some o)
    (hne : v ≠ r) :
    ∃ g' d, (b.withFlow g).replaceUse r v = .ok (b.withFlow g') ∧
      (b.withFlow g').removeInst phi = .ok d ∧ g'.origin? v = some o ∧
      b.PhiSwapped phi r v g' d := by
  obtain ⟨ty, ho, -⟩ := hc.flow.result_origin hr
  obtain ⟨g', hrepl, hcoh, hR'⟩ :=
    replaceUse_ok (b := b.withFlow g) (hc.rewire hg hR) (hR.origin? ho) hv
  have hswap := hR.trans hR'
  have hplain : inst.op.isTerminator = false :=
    (DataFlow.isTerminator_of_inst hi).symm.trans
      (Func.not_terminator_of_phi ((DataFlow.isPhi_of_inst hi).trans hop))
  obtain ⟨d, hd, hcohd, hs, hl, hthin, hidle⟩ := removeReplaced_ok hi hr hne hplain hcoh hswap
  refine ⟨g', d, hrepl, hd, hR'.origin? hv,
    ⟨fun j => ?_, fun {j} hj => ?_, by rw [← hswap.size]; exact hs.size⟩, hcoh, hswap, hcohd, hs,
    hl, hthin, hidle⟩
  · rw [hs.inst?]
    split
    · rfl
    · exact hswap.inst? j
  · rw [hs.result?, if_neg hj]
    exact hswap.result? j

theorem PhiSwapped.matches {g : DataFlow} {d : Builder} {R : ValueId → ValueId → Prop}
    (h : b.PhiSwapped phi r v g d) (hc : b.func.Coherent)
    (hrefl : ∀ {w o}, g.origin? w = some o → R w w) (hrv : R r v) {j : InstId} {jnst : Inst}
    (hj : b.flow.inst? j = some jnst) : Inst.Matches R jnst (jnst.mapArgs (DataFlow.swap r v)) := by
  refine .of_mapArgs fun w hw => ?_
  obtain ⟨o, ho⟩ := hc.flow.operand hj hw
  by_cases hwr : w = r
  · subst hwr
    rw [DataFlow.swap, if_pos rfl]
    exact hrv
  · rw [DataFlow.swap_of_ne hwr]
    exact hrefl (h.rewired.origin? ho)

theorem PhiSwapped.regular {g : DataFlow} {d : Builder} (h : b.PhiSwapped phi r v g d)
    (hf : b.func.Regular entry) :
    (b.withFlow g).func.Regular entry :=
  hf.rewire h.between.flow h.rewired fun hj =>
    h.matches (R := fun _ _ => True) hf.coherent (fun _ => trivial) trivial hj

theorem PhiSwapped.inherits {g : DataFlow} {d : Builder} (h : b.PhiSwapped phi r v g d)
    (hf : b.func.Regular entry) (hi : b.flow.inst? phi = some inst) (hop : inst.op.isPhi = true)
    (hr : b.flow.result? phi = some r) (hall : ∀ x ∈ inst.args, x = v ∨ x = r) :
    b.func.Inherits d.func entry := by
  obtain ⟨home, xs, hxs, hmem⟩ := hf.coherent.home hi
  have hhead := hf.shape.mem_phis hxs hmem ((DataFlow.isPhi_of_inst hi).trans hop)
  have hin : ∀ {p x}, b.func.flow.incoming? phi p = .ok (some x) → x = v ∨ x = r := fun hx =>
    hall _ (Inst.arg_of_edge (DataFlow.edge_of_incoming? hi hx))
  have horderly : ∀ {E}, b.func.Orderly E entry → (b.withFlow g).func.Orderly E entry := by
    intro E hE
    have hold : b.func.Older E entry r v := hE.older_of_single hxs hhead hr fun {p} hp hph =>
      hE.single_there hxs hhead (fun {p x} _ _ hx => ⟨x, fun _ _ _ hav => hav, hin hx⟩) hp hph
    exact hE.rewire h.between.flow h.rewired fun hj =>
      h.matches hf.coherent (fun _ _ _ _ hav => hav) hold hj
  have hleads : (b.withFlow g).func.Leads = b.func.Leads := funext fun _ => funext fun _ =>
    propext (Func.leads_rewire h.rewired (fun _ => Inst.op_mapArgs ..) fun _ =>
      Inst.blocks_mapArgs ..)
  refine ⟨(h.thinned.leads_eq h.idle (h.regular hf).shape).trans hleads,
    fun hE => (horderly hE).thin h.thinned h.idle h.coherent, fun E args e hserves => ?_⟩
  have hbetween : (b.withFlow g).func.Serves E entry args e := by
    refine hserves.rewire h.between.flow h.rewired fun {s₀} hstart {j jnst} hj => ?_
    refine h.matches hf.coherent (fun _ => Same.refl _) ?_ hj
    exact Same.of_single hserves.1 (hserves.1.atStart hstart) h.rewired.origin? hxs hhead hr
      fun _ _ hx => ⟨_, Same.refl _, hin hx⟩
  refine hbetween.thin h.thinned h.idle h.coherent (C := fun _ => False) fun _ =>
    Func.apart_of_noStores fun j hj x y hst => ?_
  rw [List.mem_singleton.1 hj] at hst
  obtain ⟨inst', hi', he⟩ := h.rewired.exists_inst hst
  cases hi.symm.trans hi'
  have hop' := congrArg (·.op.isPhi) he
  rw [Inst.op_mapArgs, hop] at hop'
  cases hop'

/-- What replacing a phi leaves. -/
structure PhiGone (b : Builder) (entry : BlockId) (phi : InstId) (r v : ValueId) (c : Builder) :
    Prop extends TrivialPhi.Replaced b c phi r v where
  trim : c.func.Trim entry
  tidy : b.func.Tidy entry → c.func.Tidy entry
  returns : b.func.Tidy entry → ∀ {args d}, b.func.Returns args d → c.func.Returns args d
  blocks : c.func.blocks = b.func.blocks
  leads : c.func.Leads = b.func.Leads
  insts : ∀ d, c.func.insts d = (b.func.insts d).map (·.filter (· ≠ phi))
  weight : c.flow.weight + 1 = b.flow.weight

theorem replacePhi_ok (ht : b.func.Trim entry) (hxs : b.func.insts home = .ok xs) (hphi : phi ∈ xs)
    (hi : b.flow.inst? phi = some inst) (hop : inst.op.isPhi = true)
    (hr : b.flow.result? phi = some r) (hv : v ∈ inst.args) (hne : v ≠ r)
    (hall : ∀ x ∈ inst.args, x = v ∨ x = r) :
    ∃ c d, b.replaceUse r v = .ok c ∧ c.removeInst phi = .ok d ∧ b.PhiGone entry phi r v d := by
  have hc := ht.coherent
  have hhead := ht.shape.mem_phis hxs hphi ((DataFlow.isPhi_of_inst hi).trans hop)
  obtain ⟨o, hvo⟩ := hc.flow.operand hi hv
  have hedge : ∃ p, (v, p) ∈ inst.edges := by
    obtain ⟨args, preds, rfl⟩ := Verify.phi_of_form (ht.forms hi) hop
    rw [← (hc.flow.even hi).args ⟨_, _, _, rfl⟩, List.mem_map] at hv
    obtain ⟨⟨_, p⟩, he, rfl⟩ := hv
    exact ⟨p, he⟩
  obtain ⟨p, hedge⟩ := hedge
  obtain ⟨g, d, hg, hd, -, hswap⟩ := swapPhi_ok hc hc.flow (.refl b.flow) hi hop hr hvo hne
  have hrefl : b.func.Restated entry b.func.flow := .refl hc
  have hfits : b.func.Fits entry b.func.flow r v :=
    hrefl.fits.fits_of_single ht.toFormed ht.typed ht.dominated hxs hhead (ht.reached_insts hxs) hi
      hr hedge (.refl hvo) fun {x p} he _ => by
      obtain ⟨o', ho'⟩ := hc.flow.operand hi (Inst.arg_of_edge he)
      exact ⟨x, .refl ho', hall x (Inst.arg_of_edge he)⟩
  have hreworded : b.func.Reworded (b.func.Fits entry g) g :=
    ⟨hswap.between.flow, _, hswap.rewired, hswap.matches hc .refl (hfits.extend hswap.rewired)⟩
  have htrim : (b.withFlow g).func.Trim entry := ht.reword hreworded
  have htrim' := htrim.thin hswap.thinned hswap.idle hswap.coherent
  refine ⟨b.withFlow g, d, hg, hd, hswap.toReplaced, htrim', fun htidy => ?_,
    fun htidy args e he => ?_, hswap.thinned.alike.blocks, ?_, hswap.insts, ?_⟩
  · exact ⟨htrim'.toNeat,
      ((hreworded.regular htidy.regular).thin hswap.thinned hswap.idle hswap.coherent).noCopies⟩
  · exact (hswap.inherits htidy.regular hi hop hr hall).refines.returns htidy.regular
      ht.dominated he
  · exact (hswap.thinned.leads_eq hswap.idle htrim.shape).trans hreworded.leads_eq
  · have hw := hswap.shrunk.weight ((hswap.rewired.inst? phi).trans (congrArg (Option.map _) hi))
    have hw' : g.weight = b.flow.weight := hswap.rewired.weight fun _ => Inst.op_mapArgs _ _
    have hone : (inst.mapArgs (DataFlow.swap r v)).op.weight = 1 := by
      rw [Inst.op_mapArgs]
      revert hop
      cases inst.op <;> decide
    rw [hone, hw'] at hw
    exact hw

theorem PhiGone.eased {c : Builder} (h : b.PhiGone entry phi r v c) : b.Eased c entry true where
  neat := h.trim.toNeat
  tidy := h.tidy
  returns := h.returns
  extent := by
    have hw : c.func.flow.weight + 1 = b.func.flow.weight := h.weight
    simp only [Func.extent, h.blocks, Bool.toNat_true]
    omega
  same h := by cases h

end Builder

theorem DataFlow.length_le_size {g : DataFlow} {is : List InstId} (hn : is.Nodup)
    (h : ∀ i ∈ is, ∃ inst, g.inst? i = some inst) : is.length ≤ g.insts.size := by
  have hsub : is.toFinset ⊆ g.ids := fun i hi => by
    obtain ⟨inst, hinst⟩ := h i (List.mem_toFinset.1 hi)
    exact mem_ids.2 ⟨_, op?_eq_some hinst⟩
  have hkeys : g.ids.card ≤ (g.insts.toList.map (·.1)).length := List.toFinset_card_le _
  rw [List.length_map] at hkeys
  rw [← List.toFinset_card_of_nodup hn]
  exact (Finset.card_le_card hsub).trans hkeys

namespace TrivialPhi

theorem merged_singleton {r v : ValueId} {args : List ValueId} (h : merged r args = [v]) :
    v ∈ args ∧ v ≠ r ∧ ∀ x ∈ args, x = v ∨ x = r := by
  have hmem : ∀ {x}, x ∈ merged r args ↔ x ∈ args ∧ x ≠ r := by
    unfold merged
    intro x
    rw [List.mem_eraseDups, List.mem_filter, decide_eq_true_eq]
  have hv := hmem.1 (h ▸ List.mem_cons_self)
  refine ⟨hv.1, hv.2, fun x hx => ?_⟩
  by_cases hxr : x = r
  · exact .inr hxr
  · have := hmem.2 ⟨hx, hxr⟩
    rw [h] at this
    exact .inl (List.mem_singleton.1 this)

theorem merged_ne_nil {r v : ValueId} {args : List ValueId} (hv : v ∈ args) (hne : v ≠ r) :
    merged r args ≠ [] := by
  refine List.ne_nil_of_mem (a := v) ?_
  unfold merged
  rw [List.mem_eraseDups, List.mem_filter, decide_eq_true_eq]
  exact ⟨hv, hne⟩

theorem merged_nil {r : ValueId} {args : List ValueId} (h : merged r args = []) :
    ∀ x ∈ args, x = r := by
  intro x hx
  refine Classical.byContradiction fun hne => ?_
  exact merged_ne_nil hx hne h

theorem substitute?_ok {g : DataFlow} {r : ValueId} {ty : Ty} (hty : g.ty r = .ok ty)
    (args : List ValueId) :
    ∃ new?, substitute? g r args = .ok new? := by
  unfold substitute?
  split
  · exact ⟨some (g.undef ty), by rw [hty, ok_bind]; rfl⟩
  · exact ⟨_, rfl⟩
  · exact ⟨_, rfl⟩

theorem substitute?_some {g g' : DataFlow} {r v : ValueId} {args : List ValueId} (hg : g.Exact)
    (h : substitute? g r args = .ok (some (v, g'))) :
    g'.Exact ∧ DataFlow.Rewired g g' (fun _ inst => inst) ∧
      ((g' = g ∧ v ∈ args ∧ v ≠ r ∧ ∀ x ∈ args, x = v ∨ x = r) ∨
        (∀ x ∈ args, x = r) ∧ ∃ ty, g.ty r = .ok ty ∧ g'.origin? v = some (.undef ty)) := by
  unfold substitute? at h
  split at h
  · next hm =>
    obtain ⟨ty, hty, h⟩ := bind_eq_ok.1 h
    obtain ⟨w, g'', hw, hwo, hg'', hR⟩ := DataFlow.shared_ok hg (o := .undef ty) (.inr rfl)
    have hundef : g.undef ty = (w, g'') := hw
    rw [hundef] at h
    cases h
    exact ⟨hg'', hR, .inr ⟨merged_nil hm, ty, hty, hwo⟩⟩
  · next hm =>
    cases h
    exact ⟨hg, .refl g, .inl ⟨rfl, merged_singleton hm⟩⟩
  · cases h

/-- What holds again and again while trivial phis give way; `n` of them are gone. -/
structure Kept (I : Nat → Builder → Prop) : Prop where
  coherent : ∀ {n b}, I n b → b.func.Coherent
  yields : ∀ {n b phi inst r j jnst}, I n b → b.flow.inst? phi = some inst → inst.op.isPhi = true →
    b.flow.result? phi = some r → b.flow.inst? j = some jnst → jnst.op.isPhi = true →
    r ∈ jnst.args →
    ∃ w, b.flow.result? j = some w
  replace : ∀ {n b phi inst r v g}, I n b → b.flow.inst? phi = some inst → inst.op.isPhi = true →
    b.flow.result? phi = some r → substitute? b.flow r inst.args = .ok (some (v, g)) →
    ∃ c d, (b.withFlow g).replaceUse r v = .ok c ∧ c.removeInst phi = .ok d ∧
    Replaced b d phi r v ∧ I (n + 1) d

/-- What may wait on the stack: a phi that yields a value, unless it is gone by then. -/
def Waits (b : Builder) (i : InstId) : Prop :=
  ∀ inst, b.flow.inst? i = some inst → inst.op.isPhi = true ∧ ∃ r, b.flow.result? i = some r

theorem Waits.step {b d : Builder} {phi i : InstId} {r v : ValueId} (hi : Waits b i)
    (h : Replaced b d phi r v) :
    Waits d i := by
  intro inst hinst
  rw [h.inst?] at hinst
  split at hinst
  · cases hinst
  · rename_i hne
    obtain ⟨old, hold, rfl⟩ := Option.map_eq_some_iff.1 hinst
    rw [Inst.op_mapArgs, h.result? hne]
    exact hi old hold

theorem Kept.users_wait {I : Nat → Builder → Prop} (hI : Kept I) {n : Nat} {b : Builder}
    {phi : InstId} {inst : Inst} {r : ValueId} {g : DataFlow} {users : List InstId} (h : I n b)
    (hinst : b.flow.inst? phi = some inst) (hop : inst.op.isPhi = true)
    (hr : b.flow.result? phi = some r) (hR : DataFlow.Rewired b.flow g fun _ inst => inst)
    (hn : users.Nodup) (hmem : ∀ i ∈ users, ∃ jnst, g.inst? i = some jnst ∧ r ∈ jnst.args) :
    (∀ i ∈ users.filter (fun user => user ≠ phi && g.isPhi user), Waits b i) ∧
      (users.filter (fun user => user ≠ phi && g.isPhi user)).length + 1 ≤ b.flow.insts.size := by
  have hphis : ∀ i ∈ users.filter (fun user => user ≠ phi && g.isPhi user),
      i ≠ phi ∧ ∃ jnst, b.flow.inst? i = some jnst ∧ jnst.op.isPhi = true ∧
      ∃ w, b.flow.result? i = some w := by
    intro i hi
    simp only [List.mem_filter, Bool.and_eq_true, decide_eq_true_eq] at hi
    obtain ⟨hi, hne, hisPhi⟩ := hi
    obtain ⟨jnst, hj, hrj⟩ := hmem i hi
    have hj' : b.flow.inst? i = some jnst := by
      rw [hR.inst?, Option.map_id'] at hj
      exact hj
    have hjphi := (DataFlow.isPhi_of_inst hj).symm.trans hisPhi
    exact ⟨hne, jnst, hj', hjphi, hI.yields h hinst hop hr hj' hjphi hrj⟩
  constructor
  · intro i hi jnst' hj'
    obtain ⟨-, jnst, hj, hjphi, hw⟩ := hphis i hi
    cases hj.symm.trans hj'
    exact ⟨hjphi, hw⟩
  · rw [← List.length_cons (a := phi)]
    refine DataFlow.length_le_size (List.nodup_cons.2 ⟨fun hi => (hphis phi hi).1 rfl,
      hn.filter _⟩) ?_
    rintro i (_ | ⟨_, hi⟩)
    · exact ⟨inst, hinst⟩
    · obtain ⟨-, jnst, hj, -⟩ := hphis i hi
      exact ⟨jnst, hj⟩

theorem fuel_left {users rest left fuel : Nat} (hroom : users + 1 ≤ left + 1)
    (h : rest + 1 + (left + 1) * (left + 1) ≤ fuel + 1) : users + rest + left * left ≤ fuel := by
  have hsquare : (left + 1) * (left + 1) = left * left + 2 * left + 1 := by
    rw [Nat.succ_mul, Nat.mul_succ]
    omega
  omega

/-- Replacing phis goes through, whatever waits on the stack. -/
theorem removeFrom_keeps {I : Nat → Builder → Prop} (hI : Kept I) {fuel count : Nat}
    {stack : List InstId} {b : Builder} (h : I count b) (hstack : ∀ i ∈ stack, Waits b i)
    (hfuel : stack.length + b.flow.insts.size * b.flow.insts.size ≤ fuel) :
    (removeFrom fuel count stack b).Yields fun r => I r.1 r.2 := by
  induction fuel generalizing count stack b with
  | zero =>
    cases stack with
    | nil => exact Run.yields_pure h
    | cons i stack => simp at hfuel
  | succ fuel ih =>
    cases stack with
    | nil => exact Run.yields_pure h
    | cons phi rest =>
      have hrest := fun i hi => hstack i (List.mem_cons_of_mem _ hi)
      have hskip := @ih count rest b h hrest (by rw [List.length_cons] at hfuel; omega)
      have hc := hI.coherent h
      unfold removeFrom
      split
      · exact hskip
      · rename_i hhas
        obtain ⟨inst, hinst⟩ := DataFlow.hasInst_iff.1 (by simpa using hhas)
        obtain ⟨hop, r, hr⟩ := hstack phi List.mem_cons_self inst hinst
        obtain ⟨ty, ho, -⟩ := hc.flow.result_origin hr
        refine (Run.yields_lift ⟨r, DataFlow.result_eq_ok.2 hr, rfl⟩).bind ?_
        rintro _ rfl
        refine (Run.yields_lift ⟨inst, DataFlow.inst_eq_ok.2 hinst, rfl⟩).bind ?_
        rintro _ rfl
        obtain ⟨new?, hnew⟩ := substitute?_ok (DataFlow.ty_of_origin ho) inst.args
        refine (Run.yields_lift ⟨new?, hnew, rfl⟩).bind ?_
        rintro _ rfl
        cases new? with
        | none => exact hskip
        | some new =>
          obtain ⟨v, g⟩ := new
          obtain ⟨hg, hR, -⟩ := substitute?_some hc.flow hnew
          refine (Run.yields_log (P := fun _ => True) trivial).bind fun _ _ => ?_
          obtain ⟨users, husers, hmem⟩ := hg.users_ok (hR.origin? ho)
          refine (Run.yields_lift ⟨users, husers, rfl⟩).bind ?_
          rintro _ rfl
          obtain ⟨c, d, hrepl, hremove, hgone, hd⟩ := hI.replace h hinst hop hr hnew
          refine (Run.yields_lift ⟨c, hrepl, rfl⟩).bind ?_
          rintro _ rfl
          refine (Run.yields_lift ⟨d, hremove, rfl⟩).bind ?_
          rintro _ rfl
          obtain ⟨hwait, hroom⟩ := hI.users_wait h hinst hop hr hR users.nodup fun i => (hmem i).1
          refine @ih (count + 1) _ d hd (fun i hi => ?_) ?_
          · rcases List.mem_append.1 hi with hi | hi
            · exact (hwait i (List.mem_reverse.1 hi)).step hgone
            · exact (hrest i hi).step hgone
          · rw [List.length_append, List.length_reverse]
            rw [← hgone.size] at hroom hfuel
            exact fuel_left hroom hfuel

theorem kept_eased (start : Builder) (entry : BlockId) :
    Kept fun n b => start.Eased b entry (decide (0 < n)) ∧ b.func.Trim entry where
  coherent h := h.2.coherent
  yields {n b phi inst r j jnst} h _ _ _ hj hop _ := by
    obtain ⟨home, xs, hxs, hjx⟩ := h.2.coherent.home hj
    exact h.2.phi_yields hxs hjx ((DataFlow.isPhi_of_inst hj).trans hop)
  replace {n b phi inst r v g} h hinst hop hr hnew := by
    obtain ⟨heased, ht⟩ := h
    obtain ⟨home, xs, hxs, hphi⟩ := ht.coherent.home hinst
    obtain ⟨-, -, ⟨rfl, hv, hne, hall⟩ | ⟨hall, -⟩⟩ := substitute?_some ht.coherent.flow hnew
    · obtain ⟨c, d, hc, hd, hgone⟩ := Builder.replacePhi_ok ht hxs hphi hinst hop hr hv hne hall
      refine ⟨c, d, hc, hd, hgone.toReplaced, ?_, hgone.trim⟩
      have hboth := heased.trans hgone.eased
      rwa [Bool.or_true] at hboth
    · obtain ⟨v, hv, hne⟩ := ht.phi_merges hxs hphi hinst hop hr
      exact absurd (hall v hv) hne

/-- Whether its blocks are reached or not, a function without errors gives way to one that serves
what it serves, with fewer instructions. -/
structure Succeeded (start b : Builder) (entry : BlockId) : Prop where
  regular : b.func.Regular entry
  typed : b.func.Typed
  inherits : start.func.Inherits b.func entry
  fewer : ∀ {i inst}, b.flow.inst? i = some inst → ∃ old, start.flow.inst? i = some old ∧
    inst.op = old.op

theorem kept_succeeded (start : Builder) (entry : BlockId) :
    Kept fun _ b => Succeeded start b entry where
  coherent h := h.regular.coherent
  yields {n b phi inst r j jnst} h _ _ hr hj hop hrj := by
    -- A phi for such a result is of its type, which is not `void`.
    obtain ⟨ty, ho, hne⟩ := h.regular.coherent.flow.result_origin hr
    obtain ⟨args, preds, rfl⟩ := Verify.phi_of_form (h.regular.forms hj) hop
    have hty : b.func.tyOf r = b.func.yieldTy j := h.typed hj r hrj
    rw [Func.tyOf_eq ho] at hty
    cases hw : b.flow.result? j with
    | some w => exact ⟨w, rfl⟩
    | none =>
      unfold Func.yieldTy at hty
      rw [show b.func.flow.result? j = none from hw] at hty
      exact absurd hty hne
  replace {n b phi inst r v g} h hinst hop hr hnew := by
    have hc := h.regular.coherent
    obtain ⟨ty, ho, -⟩ := hc.flow.result_origin hr
    obtain ⟨hg, hR, hcases⟩ := substitute?_some hc.flow hnew
    have hmerged : v ≠ r ∧ (∀ x ∈ inst.args, x = v ∨ x = r) ∧ ∃ o, g.origin? v = some o ∧
        o.ty = ty := by
      rcases hcases with ⟨rfl, hv, hne, hall⟩ | ⟨hall, ty', hty, hv⟩
      · refine ⟨hne, hall, ?_⟩
        obtain ⟨o, hvo⟩ := hc.flow.operand hinst hv
        obtain ⟨args, preds, rfl⟩ := Verify.phi_of_form (h.regular.forms hinst) hop
        have hrule : b.func.tyOf v = b.func.yieldTy phi := h.typed hinst v hv
        rw [Func.yieldTy_of_result hr, Func.tyOf_eq hvo, Func.tyOf_eq ho] at hrule
        exact ⟨o, hvo, hrule⟩
      · refine ⟨?_, fun x hx => .inr (hall x hx), _, hv, ?_⟩
        · rintro rfl
          cases (hR.origin? ho).symm.trans hv
        · exact Except.ok.inj (hty.symm.trans (DataFlow.ty_of_origin ho))
    obtain ⟨hne, hall, o, hvo, hoty⟩ := hmerged
    obtain ⟨g', d, hrepl, hd, hvo', hswap⟩ := Builder.swapPhi_ok hc hg hR hinst hop hr hvo hne
    refine ⟨_, d, hrepl, hd, hswap.toReplaced, ?_⟩
    refine ⟨?_, ?_, h.inherits.trans (hswap.inherits h.regular hinst hop hr hall),
      fun {i inst'} hi => ?_⟩
    · exact (hswap.regular h.regular).thin hswap.thinned hswap.idle hswap.coherent
    · -- The value is of the type of the phi.
      refine hswap.thinned.types hswap.idle hswap.between ?_
      refine Func.Typed.rewire (f := b.func) (R := fun a w => w = DataFlow.swap r v a) h.typed
        hc hswap.rewired (fun _ => .of_mapArgs fun _ _ => rfl) ?_
      rintro a _ o' rfl ho'
      by_cases har : a = r
      · subst har
        cases ho.symm.trans ho'
        exact ⟨o, by rw [DataFlow.swap, if_pos rfl, hvo'], hoty, fun hreg => by cases hreg⟩
      · exact ⟨o', by rw [DataFlow.swap_of_ne har, hswap.rewired.origin? ho'], rfl, id⟩
    · rw [hswap.inst?] at hi
      split at hi
      · cases hi
      · obtain ⟨old, hold, rfl⟩ := Option.map_eq_some_iff.1 hi
        rw [Inst.op_mapArgs]
        exact h.fewer hold

end TrivialPhi

theorem FlowSimplification.simplifyPhis_yields {b : Builder} {entry : BlockId}
    (ht : b.func.Trim entry) :
    (simplifyPhis b).Yields fun r => b.Eased r.2 entry r.1 ∧ r.2.func.Trim entry := by
  unfold simplifyPhis Builder.removeTrivialPhis
  refine (TrivialPhi.removeFrom_keeps (TrivialPhi.kept_eased b entry) ⟨.refl ht.toNeat,
    ht⟩ (fun i hi inst hinst => ?_) ?_).bind ?_
  · obtain ⟨row, -, hi⟩ := List.mem_flatMap.1 (List.mem_reverse.1 hi)
    have hisPhi : b.flow.isPhi i = true := List.all_eq_true.1 List.all_takeWhile i hi
    obtain ⟨home, xs, hxs, hix⟩ := ht.coherent.home hinst
    exact ⟨(DataFlow.isPhi_of_inst hinst).symm.trans hisPhi, ht.phi_yields hxs hix hisPhi⟩
  · rw [List.length_reverse]
    exact Nat.le_succ _
  · rintro ⟨n, c⟩ ⟨heased, htrim⟩
    exact Run.yields_pure ⟨heased, htrim⟩

end MiddleEnd
