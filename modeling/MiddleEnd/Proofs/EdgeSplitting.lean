import MiddleEnd.Transform.PhiLowering
import MiddleEnd.Proofs.Grafting
import MiddleEnd.Proofs.Pruning

/-!
# Splitting edges

An edge is led through a new block that holds nothing but a jump. The terminator that took the edge
names the new block, and so do the phis at its end. Whatever edges are led through blocks of their
own one after the other, each is either still there or goes by its block, and no other edge comes
about.
-/

namespace MiddleEnd

open DataFlow (reroute)

theorem DataFlow.isPhi_mapBlocks {g g' : DataFlow} {i : InstId} {inst : Inst}
    {σ : BlockId → BlockId} (hi : g.inst? i = some inst)
    (hi' : g'.inst? i = some (inst.mapBlocks σ)) :
    g'.isPhi i = g.isPhi i ∧ g'.isTerminator i = g.isTerminator i := by
  rw [isPhi_of_inst hi, isPhi_of_inst hi', isTerminator_of_inst hi, isTerminator_of_inst hi',
    Inst.op_mapBlocks]
  exact ⟨rfl, rfl⟩

theorem DataFlow.inst_of_isPhi {g : DataFlow} {i : InstId} (h : g.isPhi i = true) :
    ∃ inst, g.inst? i = some inst := by
  unfold isPhi op? at h
  cases hi : g.inst? i with
  | none =>
    rw [hi] at h
    cases h
  | some inst => exact ⟨inst, rfl⟩

namespace Func

def splitInst (f : Func) (source target split : BlockId) (i : InstId) (inst : Inst) : Inst :=
  if inst.op.isTerminator = true ∧
    f.layout.blockOf? i = some source then inst.mapBlocks (reroute target split)
  else if inst.op.isPhi = true ∧
    f.layout.blockOf? i = some target then inst.mapBlocks (reroute source split)
  else inst

/-- The second function leads the edge from `source` to `target` through `split`, which holds the
jump `j`. -/
structure Split (f f' : Func) (source target split : BlockId) (j : InstId) : Prop extends
    f.Grafted f' split [j] (f.splitInst source target split) where
  jump : f'.flow.inst? j = some (.jump .br target)

namespace Split

variable {f f' : Func} {source target split a b : BlockId} {i j : InstId} {inst : Inst}
  {xs : List InstId} (h : f.Split f' source target split j)

theorem splitInst_eq (f : Func) (source target split : BlockId) (i : InstId) (inst : Inst) :
    ∃ σ, f.splitInst source target split i inst = inst.mapBlocks σ ∧
      ∀ c, σ c = c ∨ σ c = split := by
  have hreroute : ∀ old c, reroute old split c = c ∨ reroute old split c = split := by
    intro old c
    unfold reroute
    split
    · exact .inr rfl
    · exact .inl rfl
  unfold splitInst
  split
  · exact ⟨_, rfl, hreroute target⟩
  · split
    · exact ⟨_, rfl, hreroute source⟩
    · exact ⟨id, (Inst.mapBlocks_eq_self fun _ _ => rfl).symm, fun c => .inl rfl⟩

include h

theorem ne_split (hb : b ∈ f.blocks) : b ≠ split := fun he => h.fresh (he ▸ hb)

theorem insts_eq (hxs : f.insts b = .ok xs) : f'.insts b = .ok xs := by
  rw [h.others (h.ne_split (Layout.mem_blocks_iff.2 ⟨xs, hxs⟩)), hxs]

theorem kinds (hi : f.flow.inst? i = some inst) :
    f'.flow.isPhi i = f.flow.isPhi i ∧ f'.flow.isTerminator i = f.flow.isTerminator i := by
  obtain ⟨σ, hσ, -⟩ := splitInst_eq f source target split i inst
  exact DataFlow.isPhi_mapBlocks hi (hσ ▸ h.inst? hi)

theorem inst_cases {inst' : Inst} (hc : f.Coherent) (hi : f'.flow.inst? i = some inst') :
    (i = j ∧ inst' = .jump .br target) ∨
      ∃ inst, f.flow.inst? i = some inst ∧ inst' = f.splitInst source target split i inst := by
  obtain ⟨b, xs, hxs, hix⟩ := h.coherent.home hi
  by_cases hb : b = split
  · subst hb
    rw [h.here] at hxs
    cases hxs
    obtain rfl := List.mem_singleton.1 hix
    rw [h.jump] at hi
    exact .inl ⟨rfl, (Option.some.inj hi).symm⟩
  · rw [h.others hb] at hxs
    obtain ⟨inst, hinst⟩ := hc.inst_of_mem hxs hix
    rw [h.inst? hinst] at hi
    exact .inr ⟨inst, hinst, (Option.some.inj hi).symm⟩

theorem leads_split : f'.Leads split b ↔ b = target := by
  have hj : f'.insts split = .ok ([] ++ [j]) := h.here
  rw [leads_last_iff hj h.jump rfl]
  exact List.mem_singleton

theorem leads_old (hc : f.Coherent) (hs : f.WellShaped) (ha : a ∈ f.blocks) :
    f'.Leads a b ↔ ∃ c, f.Leads a c ∧ b = if a = source then reroute target split c else c := by
  obtain ⟨xs, hxs⟩ := Layout.mem_blocks_iff.1 ha
  obtain ⟨front, t, rfl, hterm, -⟩ := hs.ended hxs
  obtain ⟨inst, hinst⟩ := DataFlow.inst_of_isTerminator hterm
  have hop : inst.op.isTerminator = true := (DataFlow.isTerminator_of_inst hinst).symm.trans hterm
  have hop' : (f.splitInst source target split t inst).op.isTerminator = true := by
    rw [← DataFlow.isTerminator_of_inst (h.inst? hinst), (h.kinds hinst).2]
    exact hterm
  have hblock : f.layout.blockOf? t = some a :=
    hc.blockOf?_eq_some.2 ⟨_, hxs, List.mem_append_right _ List.mem_cons_self⟩
  have hnphi : inst.op.isPhi = false := by
    rw [← DataFlow.isPhi_of_inst hinst]
    exact not_phi_of_terminator hterm
  have hblocks : (f.splitInst source target split t inst).blocks =
      inst.blocks.map fun c => if a = source then reroute target split c else c := by
    unfold splitInst
    by_cases has : a = source
    · subst has
      rw [if_pos ⟨hop, hblock⟩, Inst.blocks_mapBlocks]
      simp only [if_pos]
    · rw [if_neg, if_neg (by simp [hnphi])]
      · simp only [if_neg has, List.map_id']
      · rintro ⟨-, hb⟩
        rw [hblock] at hb
        exact has (Option.some.inj hb)
  rw [leads_last_iff (h.insts_eq hxs) (h.inst? hinst) hop', hblocks, List.mem_map]
  simp only [leads_last_iff hxs hinst hop, eq_comm]

/-- The edge is gone; there is one to the new block and one from there. -/
theorem leads_iff (hc : f.Coherent) (hs : f.WellShaped) (hl : f.Leads source target) :
    f'.Leads a b ↔
    (f.Leads a b ∧ ¬ (a = source ∧ b = target)) ∨ (a = source ∧ b = split) ∨
    (a = split ∧ b = target) := by
  have hne : ∀ {x}, f.Leads a x → x ≠ split := fun hx => h.ne_split (hs.closed _ hx.mem_blocks _ hx)
  by_cases ha : a = split
  · subst ha
    have hnot : ∀ x, ¬ f.Leads a x := fun x hx => h.fresh hx.mem_blocks
    rw [h.leads_split]
    constructor
    · exact fun hb => .inr (.inr ⟨rfl, hb⟩)
    · rintro (⟨hb, -⟩ | ⟨rfl, -⟩ | ⟨-, hb⟩)
      · exact absurd hb (hnot b)
      · exact absurd hl (hnot target)
      · exact hb
  by_cases hmem : a ∈ f.blocks
  · rw [h.leads_old hc hs hmem]
    by_cases has : a = source
    · subst has
      simp only [if_pos]
      constructor
      · rintro ⟨c, hc, rfl⟩
        by_cases hct : c = target
        · rw [reroute, if_pos hct]
          exact .inr (.inl ⟨trivial, rfl⟩)
        · rw [DataFlow.reroute_of_ne hct]
          exact .inl ⟨hc, fun hn => hct hn.2⟩
      · rintro (⟨hb, hn⟩ | ⟨-, rfl⟩ | ⟨he, -⟩)
        · exact ⟨b, hb, (DataFlow.reroute_of_ne fun he => hn ⟨trivial, he⟩).symm⟩
        · exact ⟨target, hl, (if_pos rfl).symm⟩
        · exact absurd he ha
    · simp only [if_neg has, exists_eq_right']
      constructor
      · exact fun hb => .inl ⟨hb, fun hn => has hn.1⟩
      · rintro (⟨hb, -⟩ | ⟨he, -⟩ | ⟨he, -⟩)
        · exact hb
        · exact absurd he has
        · exact absurd he ha
  · constructor
    · intro hab
      rcases h.mem_blocks.1 hab.mem_blocks with hab | hab
      · exact absurd hab hmem
      · exact absurd hab ha
    · rintro (⟨hab, -⟩ | ⟨rfl, -⟩ | ⟨he, -⟩)
      · exact absurd hab.mem_blocks hmem
      · exact absurd hl.mem_blocks hmem
      · exact absurd he ha

omit h in
theorem splitInst_phi (hi : f.flow.inst? i = some inst) (hphi : inst.op.isPhi = true)
    (hb : f.layout.blockOf? i = some b) :
    f.splitInst source target split i inst = if b = target then inst.mapBlocks
      (reroute source split) else inst := by
  have hnot : ¬ (inst.op.isTerminator = true ∧ f.layout.blockOf? i = some source) := by
    rintro ⟨ht, -⟩
    rw [← DataFlow.isPhi_of_inst hi,
      not_phi_of_terminator ((DataFlow.isTerminator_of_inst hi).trans ht)] at hphi
    cases hphi
  unfold splitInst
  rw [if_neg hnot, hb]
  by_cases hbt : b = target
  · rw [if_pos hbt, if_pos ⟨hphi, congrArg some hbt⟩]
  · rw [if_neg hbt, if_neg fun hn => hbt (Option.some.inj hn.2)]

theorem phi_edges (hc : f.Coherent) (hs : f.WellShaped) (hl : f.Leads source target)
    (hxs : f.insts b = .ok xs) (hix : i ∈ xs) (hphi : f.flow.isPhi i = true) {inst' : Inst}
    (hi' : f'.flow.inst? i = some inst') :
    inst'.blocks.Nodup ∧ ∀ p, p ∈ inst'.blocks ↔ f'.Leads p b := by
  obtain ⟨inst, hi⟩ := hc.inst_of_mem hxs hix
  have hop : inst.op.isPhi = true := (DataFlow.isPhi_of_inst hi).symm.trans hphi
  obtain ⟨hnodup, hmem⟩ := hs.phi_edges hxs hix hphi hi
  have hb : b ≠ split := h.ne_split (Layout.mem_blocks_iff.2 ⟨xs, hxs⟩)
  have hold : ∀ p ∈ inst.blocks, p ≠ split := fun p hp => h.ne_split (hs.targets hi p hp)
  rw [h.inst? hi] at hi'
  obtain rfl := Option.some.inj hi'
  rw [splitInst_phi hi hop (hc.blockOf?_eq_some.2 ⟨xs, hxs, hix⟩)]
  simp only [h.leads_iff hc hs hl]
  by_cases hbt : b = target
  · subst hbt
    have hsource : source ∈ inst.blocks := (hmem source).2 hl
    rw [if_pos rfl, Inst.blocks_mapBlocks]
    constructor
    · refine List.pairwise_map.2 (hnodup.imp_of_mem fun {p q} hp hq hne he => hne ?_)
      by_cases hps : p = source <;> by_cases hqs : q = source
      · rw [hps, hqs]
      · rw [reroute, if_pos hps, DataFlow.reroute_of_ne hqs] at he
        exact absurd he.symm (hold q hq)
      · rw [DataFlow.reroute_of_ne hps, reroute, if_pos hqs] at he
        exact absurd he (hold p hp)
      · rwa [DataFlow.reroute_of_ne hps, DataFlow.reroute_of_ne hqs] at he
    · intro p
      rw [DataFlow.mem_map_reroute (hold source hsource) hsource, hmem]
      simp [hb]
  · rw [if_neg hbt]
    refine ⟨hnodup, fun p => ?_⟩
    rw [hmem]
    simp [hb, hbt]

theorem wellShaped (hc : f.Coherent) (hs : f.WellShaped) (hl : f.Leads source target) :
    f'.WellShaped where
  shaped := by
    intro b xs hxs
    by_cases hb : b = split
    · subst hb
      rw [h.here] at hxs
      cases hxs
      refine ⟨[], [], j, rfl, fun _ hi => absurd hi List.not_mem_nil,
        fun _ hi => absurd hi List.not_mem_nil, ?_,
        fun hi => absurd hi List.not_mem_nil⟩
      exact DataFlow.isTerminator_of_inst h.jump
    · rw [h.others hb] at hxs
      obtain ⟨phis, body, last, rfl, hshape⟩ := hs.shaped hxs
      have hkinds : ∀ i ∈ phis ++ (body ++ [last]),
          f'.flow.isPhi i = f.flow.isPhi i ∧ f'.flow.isTerminator i = f.flow.isTerminator i := by
        intro i hi
        obtain ⟨inst, hinst⟩ := hc.inst_of_mem hxs hi
        exact h.kinds hinst
      refine ⟨phis, body, last, rfl, fun i hi => ?_, fun i hi => ?_, ?_, fun {i inst'} hi hi' => ?_⟩
      · rw [(hkinds i (List.mem_append_left _ hi)).1]
        exact hshape.isPhi i hi
      · obtain ⟨hp, ht⟩ := hkinds i (List.mem_append_right _ (List.mem_append_left _ hi))
        rw [hp, ht]
        exact hshape.plain i hi
      · rw [(hkinds last (by simp)).2]
        exact hshape.isTerminator
      · exact h.phi_edges hc hs hl hxs (List.mem_append_left _ hi) (hshape.isPhi i hi) hi'
  targets := by
    intro i inst' hi' b hb
    rcases h.inst_cases hc hi' with ⟨-, rfl⟩ | ⟨inst, hi, rfl⟩
    · obtain rfl := List.mem_singleton.1 hb
      exact h.mem_blocks.2 (.inl (hs.closed _ hl.mem_blocks _ hl))
    · obtain ⟨σ, hσ, hmoved⟩ := splitInst_eq f source target split i inst
      rw [hσ, Inst.blocks_mapBlocks] at hb
      obtain ⟨c, hc', rfl⟩ := List.mem_map.1 hb
      apply h.mem_blocks.2
      rcases hmoved c with he | he
      · rw [he]
        exact .inl (hs.targets hi c hc')
      · exact .inr he

end Split

theorem Grafted.congr {f f' : Func} {graft : BlockId} {body : List InstId}
    {ρ ρ' : InstId → Inst → Inst} (h : f.Grafted f' graft body ρ)
    (hρ : ∀ {i inst}, f.flow.inst? i = some inst → ρ i inst = ρ' i inst) :
    f.Grafted f' graft body ρ' :=
  { h with inst? := fun hi => (h.inst? hi).trans (congrArg some (hρ hi)) }

/-- The terminator of the source is turned and some of the phis of the target are. -/
structure Turned (f f' : Func) (source target split : BlockId) (j term : InstId)
    (phis : List InstId) : Prop extends f.Grafted f' split [j] fun i inst =>
      if i = term then inst.mapBlocks (reroute target split)
      else if i ∈ phis then inst.mapBlocks (reroute source split)
      else inst where
  jump : f'.flow.inst? j = some (.jump .br target)

section Turned

variable {f c : Func} {source target split : BlockId} {j term : InstId}
  {phis front xs : List InstId}

theorem Turned.splits (h : f.Turned c source target split j term (xs.takeWhile f.flow.isPhi))
    (hc : f.Coherent) (hs : f.WellShaped) (hsource : f.insts source = .ok (front ++ [term]))
    (hterm : f.flow.isTerminator term = true) (honly : ∀ i ∈ front, f.flow.isTerminator i = false)
    (htarget : f.insts target = .ok xs) :
    f.Split c source target split j := by
  refine ⟨h.toGrafted.congr fun {i inst} hi => ?_, h.jump⟩
  have hlast : (inst.op.isTerminator = true ∧ f.layout.blockOf? i = some source) ↔ i = term := by
    rw [← DataFlow.isTerminator_of_inst hi]
    constructor
    · rintro ⟨ht, hb⟩
      obtain ⟨ys, hys, hiy⟩ := hc.blockOf?_eq_some.1 hb
      cases hsource.symm.trans hys
      refine List.mem_singleton.1 ((List.mem_append.1 hiy).resolve_left fun hm => ?_)
      rw [honly i hm] at ht
      cases ht
    · rintro rfl
      exact ⟨hterm, hc.blockOf?_eq_some.2 ⟨_, hsource, List.mem_append_right _ List.mem_cons_self⟩⟩
  have hphis : (inst.op.isPhi = true ∧ f.layout.blockOf? i = some target) ↔
      i ∈ xs.takeWhile f.flow.isPhi := by
    rw [← DataFlow.isPhi_of_inst hi]
    constructor
    · rintro ⟨hphi, hb⟩
      obtain ⟨ys, hys, hiy⟩ := hc.blockOf?_eq_some.1 hb
      cases htarget.symm.trans hys
      exact hs.mem_phis htarget hiy hphi
    · intro hm
      exact ⟨List.all_eq_true.1 List.all_takeWhile i hm,
        hc.blockOf?_eq_some.2 ⟨_, htarget, (List.takeWhile_prefix _).subset hm⟩⟩
  unfold splitInst
  simp only [hlast, hphis]

end Turned

end Func

namespace PhiLowering

variable {f : Func} {b c : Builder} {source target split : BlockId} {j term phi : InstId}
  {phis front xs : List InstId}

open Func (Turned)

theorem turnTerminator_ok (hgraft : f.Grafted c.func split [j] fun _ inst => inst)
    (hjump : c.func.flow.inst? j = some (.jump .br target)) (hs : f.WellShaped)
    (hl : f.Leads source target) (hsource : f.insts source = .ok (front ++ [term]))
    (hterm : f.flow.isTerminator term = true) :
    c.func.terminator? source = .ok (some term) ∧
    ∃ n g, c.flow.replaceBlockWithin target split term = .ok (n, g) ∧
      f.Turned (c.withFlow g).func source target split j term [] := by
  obtain ⟨inst, hi⟩ := DataFlow.inst_of_isTerminator hterm
  have hop : inst.op.isTerminator = true := (DataFlow.isTerminator_of_inst hi).symm.trans hterm
  have hi' : c.func.flow.inst? term = some inst := hgraft.inst? hi
  have hne : source ≠ split := fun he => hgraft.fresh (he ▸ hl.mem_blocks)
  have htarget : target ≠ split := fun he => hgraft.fresh (he ▸ hs.closed _ hl.mem_blocks _ hl)
  obtain ⟨n, g, hg, hexact, hR, -⟩ :=
    DataFlow.replaceBlockWithin_ok hgraft.coherent.flow htarget hi'
      ((Func.leads_last_iff hsource hi hop).1 hl)
  obtain ⟨hgraft', hext⟩ := hgraft.rewire hexact hR hi fun {k knst} hk => if_neg hk
  refine ⟨Func.terminator?_last ((hgraft.others hne).trans hsource)
    ((DataFlow.isTerminator_of_inst hi').trans hop), n, g, hg, hgraft'.congr fun {k knst} hk => ?_,
    hext.inst? (hgraft.new j List.mem_cons_self) hjump⟩
  by_cases hkt : k = term
  · subst hkt
    cases hi.symm.trans hk
    rw [if_pos rfl, if_pos rfl, if_pos rfl]
  · rw [if_neg hkt, if_neg hkt, if_neg List.not_mem_nil]

theorem turnPhi_ok (h : f.Turned c.func source target split j term phis) (hc : f.Coherent)
    (hs : f.WellShaped) (hl : f.Leads source target) (hterm : f.flow.isTerminator term = true)
    (htarget : f.insts target = .ok xs) (hphi : phi ∈ xs.takeWhile f.flow.isPhi)
    (hnew : phi ∉ phis) :
    ∃ n g, c.flow.replaceBlockWithin source split phi = .ok (n, g) ∧
      f.Turned (c.withFlow g).func source target split j term (phis ++ [phi]) := by
  have hisPhi : f.flow.isPhi phi = true := List.all_eq_true.1 List.all_takeWhile phi hphi
  have hx : phi ∈ xs := (List.takeWhile_prefix _).subset hphi
  obtain ⟨inst, hi⟩ := hc.inst_of_mem htarget hx
  have hne : phi ≠ term := by
    rintro rfl
    rw [Func.not_phi_of_terminator hterm] at hisPhi
    cases hisPhi
  have hi' : c.func.flow.inst? phi = some inst := by
    rw [h.inst? hi, if_neg hne, if_neg hnew]
  have hsplit : source ≠ split := fun he => h.fresh (he ▸ hl.mem_blocks)
  obtain ⟨n, g, hg, hexact, hR, -⟩ := DataFlow.replaceBlockWithin_ok h.coherent.flow hsplit hi'
    (((hs.phi_edges htarget hx hisPhi hi).2 source).2 hl)
  obtain ⟨hgraft, hext⟩ := h.toGrafted.rewire hexact hR hi fun {k knst} hk => if_neg hk
  refine ⟨n, g, hg, hgraft.congr fun {k knst} hk => ?_,
    hext.inst? (h.new j List.mem_cons_self) h.jump⟩
  by_cases hkp : k = phi
  · subst hkp
    cases hi.symm.trans hk
    rw [if_pos rfl, if_pos rfl, if_neg hne, if_pos (List.mem_append_right _ List.mem_cons_self)]
  · have hmem : k ∈ phis ++ [phi] ↔ k ∈ phis := by
      rw [List.mem_append, List.mem_singleton]
      exact or_iff_left hkp
    simp only [if_neg hkp, hmem]

theorem phis_turned (h : f.Turned c.func source target split j term phis) (hc : f.Coherent)
    (hs : f.WellShaped) (hl : f.Leads source target) (htarget : f.insts target = .ok xs) :
    c.func.phis target = .ok (xs.takeWhile f.flow.isPhi) := by
  have hsame : ∀ i ∈ xs, c.func.flow.isPhi i = f.flow.isPhi i := by
    intro i hi
    obtain ⟨inst, hinst⟩ := hc.inst_of_mem htarget hi
    have hinst' := h.inst? hinst
    rw [DataFlow.isPhi_of_inst hinst', DataFlow.isPhi_of_inst hinst]
    split
    · rw [Inst.op_mapBlocks]
    · split
      · rw [Inst.op_mapBlocks]
      · rfl
  have hne : target ≠ split := fun he => h.fresh (he ▸ hs.closed _ hl.mem_blocks _ hl)
  have htake := Func.takeWhile_map_of (g := id) hsame
  rw [List.map_id, List.map_id] at htake
  unfold Func.phis
  rw [h.others hne, htarget, ok_bind, htake]

/-- Leading an edge through a new block goes through. -/
theorem splitEdge_yields (hc : b.func.Coherent) (hs : b.func.WellShaped)
    (hl : b.func.Leads source target) :
    (splitEdge b source target).Yields fun d =>
      ∃ split j, b.func.Split d.func source target split j := by
  obtain ⟨ys, hys⟩ := Layout.mem_blocks_iff.1 hl.mem_blocks
  obtain ⟨front, term, rfl, hterm, honly⟩ := hs.ended hys
  obtain ⟨xs, hxs⟩ := Layout.mem_blocks_iff.1 (hs.closed _ hl.mem_blocks _ hl)
  obtain ⟨split, b₁, hadd, hgraft₁⟩ := Builder.addBlockAfter_grafts hc "split" hl.mem_blocks
  obtain ⟨j, b₂, v?, hins, hcoh₂, hnew⟩ :=
    Builder.append_ok hgraft₁.coherent hgraft₁.here (.jump .br target) .void (fun v hv =>
      by cases hv) (fun _ _ _ he => by cases he)
  obtain ⟨hgraft₂, -⟩ := hgraft₁.insert hcoh₂ hnew
  have hjump : b₂.func.flow.inst? j = some (.jump .br target) := by
    rw [hnew.grown.inst?, if_pos rfl]
  obtain rfl := hnew.grown.yields.2 rfl
  have hbr : (b₁.goTo (.append split)).br none target = .ok (j, b₂) := by
    unfold Builder.br Builder.emit
    rw [hins]
    rfl
  obtain ⟨hlast, n, g, hg, hturned⟩ := turnTerminator_ok hgraft₂ hjump hs hl hys hterm
  have hphis : (b₂.withFlow g).func.phis target = .ok (xs.takeWhile b.func.flow.isPhi) :=
    phis_turned hturned hc hs hl hxs
  unfold splitEdge
  refine (Run.yields_lift ⟨_, hadd, rfl⟩).bind ?_
  rintro _ rfl
  refine (Run.yields_lift ⟨_, hbr, rfl⟩).bind ?_
  rintro _ rfl
  refine (Run.yields_lift ⟨_, hlast, rfl⟩).bind ?_
  rintro _ rfl
  dsimp only
  refine (Run.yields_lift ⟨_, hg, rfl⟩).bind ?_
  rintro _ rfl
  refine (Run.yields_pure rfl).bind ?_
  rintro _ rfl
  refine (Run.yields_lift ⟨_, hphis, rfl⟩).bind ?_
  rintro _ rfl
  have hnodup : (xs.takeWhile b.func.flow.isPhi).Nodup :=
    (hc.layout.insts_nodup hxs).sublist (List.takeWhile_sublist _)
  refine (Run.yields_foldlM (fun past c => b.func.Turned c.func source target split j term past)
    hturned ?_).bind ?_
  · intro past phi post c hsplit hc'
    have hphi : phi ∈ xs.takeWhile b.func.flow.isPhi :=
      hsplit ▸ List.mem_append_right _ List.mem_cons_self
    have hnew : phi ∉ past := by
      rw [hsplit] at hnodup
      exact fun hm => (List.nodup_append.1 hnodup).2.2 phi hm phi List.mem_cons_self rfl
    obtain ⟨m, g', hg', hturned'⟩ := turnPhi_ok hc' hc hs hl hterm hxs hphi hnew
    refine (Run.yields_lift ⟨_, hg', rfl⟩).bind ?_
    rintro _ rfl
    exact Run.yields_pure hturned'
  · intro c hc'
    refine (Run.yields_log (P := fun _ => True) trivial).bind fun _ _ => Run.yields_pure ?_
    exact ⟨split, j, hc'.splits hc hs hys hterm honly hxs⟩

end PhiLowering

namespace Func

/-- The block leads to several blocks. -/
def Forks (f : Func) (a : BlockId) : Prop := ∃ x y, x ≠ y ∧ f.Leads a x ∧ f.Leads a y

/-- Several blocks lead to the block. -/
def Merges (f : Func) (b : BlockId) : Prop := ∃ x y, x ≠ y ∧ f.Leads x b ∧ f.Leads y b

/-- Control comes to `s` from `u` only and goes on to `v` only. -/
structure Between (f : Func) (s u v : BlockId) : Prop where
  enter : f.Leads u s
  leave : f.Leads s v
  sole_pred : ∀ {x}, f.Leads x s → x = u
  sole_succ : ∀ {y}, f.Leads s y → y = v

theorem Between.unique {f : Func} {s u v u' v' : BlockId} (h : f.Between s u v)
    (h' : f.Between s u' v') :
    u = u' ∧ v = v' :=
  ⟨h'.sole_pred h.enter, h'.sole_succ h.leave⟩

/-- Some edges of the first function go through blocks of their own in the second one. -/
structure Routed (f c : Func) (done : List (BlockId × BlockId))
    (via : BlockId × BlockId → BlockId) : Prop where
  coherent : c.Coherent
  shape : c.WellShaped
  mem_blocks : ∀ {b}, b ∈ c.blocks ↔ b ∈ f.blocks ∨ ∃ e ∈ done, b = via e
  edges : ∀ e ∈ done, f.Leads e.1 e.2
  fresh : ∀ e ∈ done, via e ∉ f.blocks
  distinct : ∀ e ∈ done, ∀ e' ∈ done, via e = via e' → e = e'
  leads_iff : ∀ {a b}, c.Leads a b ↔ (f.Leads a b ∧ (a, b) ∉ done) ∨
    ∃ e ∈ done, (a = e.1 ∧ b = via e) ∨ (a = via e ∧ b = e.2)
  phis : ∀ {i}, c.flow.isPhi i = true → f.flow.isPhi i = true ∧ c.flow.result? i = f.flow.result? i

namespace Routed

variable {f c d : Func} {done : List (BlockId × BlockId)} {via : BlockId × BlockId → BlockId}
  {e : BlockId × BlockId} {a b source target split : BlockId} {j : InstId}

theorem start (hc : f.Coherent) (hs : f.WellShaped) : f.Routed f [] via where
  coherent := hc
  shape := hs
  mem_blocks := by simp
  edges _ he := absurd he List.not_mem_nil
  fresh _ he := absurd he List.not_mem_nil
  distinct _ he := absurd he List.not_mem_nil
  leads_iff := by simp
  phis hphi := ⟨hphi, rfl⟩

theorem not_via (h : f.Routed c done via) (he : e ∈ done) (hb : b ∈ f.blocks) : b ≠ via e :=
  fun hbe => h.fresh e he (hbe ▸ hb)

/-- One more edge is led through a block of its own. -/
theorem step (h : f.Routed c done via) (hclosed : f.Closed) (hl : f.Leads source target)
    (hnew : (source, target) ∉ done) (hsplit : c.Split d source target split j) :
    f.Routed d (done ++ [(source, target)]) fun e =>
      if e = (source, target) then split else via e := by
  have hlead : c.Leads source target := h.leads_iff.2 (.inl ⟨hl, hnew⟩)
  have hsource : source ∈ f.blocks := hl.mem_blocks
  have htarget : target ∈ f.blocks := hclosed _ hsource _ hl
  have hold : ∀ e ∈ done, (if e = (source, target) then split else via e) = via e :=
    fun e he => if_neg (ne_of_mem_of_not_mem he hnew)
  have hthis : (if (source, target) = (source, target) then split else via (source, target)) =
      split := if_pos rfl
  have hsplitNew : split ∉ f.blocks := fun hb => hsplit.fresh (h.mem_blocks.2 (.inl hb))
  have hsplitVia : ∀ e ∈ done, via e ≠ split :=
    fun e he hes => hsplit.fresh (h.mem_blocks.2 (.inr ⟨e, he, hes.symm⟩))
  refine
    { coherent := hsplit.coherent
      shape := hsplit.wellShaped h.coherent h.shape hlead
      mem_blocks := ?_, edges := ?_, fresh := ?_, distinct := ?_, leads_iff := ?_, phis := ?_ }
  · intro b
    rw [hsplit.mem_blocks, h.mem_blocks, or_assoc]
    refine or_congr_right ⟨?_, ?_⟩
    · rintro (⟨e, he, rfl⟩ | rfl)
      · exact ⟨e, List.mem_append_left _ he, (hold e he).symm⟩
      · exact ⟨_, List.mem_append_right _ List.mem_cons_self, hthis.symm⟩
    · rintro ⟨e, he, rfl⟩
      rcases List.mem_append.1 he with he | he
      · exact .inl ⟨e, he, hold e he⟩
      · rw [List.mem_singleton.1 he]
        exact .inr hthis
  · intro e he
    rcases List.mem_append.1 he with he | he
    · exact h.edges e he
    · rw [List.mem_singleton.1 he]
      exact hl
  · intro e he
    rcases List.mem_append.1 he with he | he
    · rw [hold e he]
      exact h.fresh e he
    · rw [List.mem_singleton.1 he, hthis]
      exact hsplitNew
  · intro e he e' he' hee
    rcases List.mem_append.1 he with he | he <;> rcases List.mem_append.1 he' with he' | he'
    · rw [hold e he, hold e' he'] at hee
      exact h.distinct e he e' he' hee
    · rw [hold e he, List.mem_singleton.1 he', hthis] at hee
      exact absurd hee (hsplitVia e he)
    · rw [hold e' he', List.mem_singleton.1 he, hthis] at hee
      exact absurd hee.symm (hsplitVia e' he')
    · rw [List.mem_singleton.1 he, List.mem_singleton.1 he']
  · intro a b
    rw [hsplit.leads_iff h.coherent h.shape hlead, h.leads_iff]
    constructor
    · rintro (⟨⟨hab, hmem⟩ | ⟨e, he, hab⟩, hne⟩ | hab | hab)
      · refine .inl ⟨hab, fun hm => ?_⟩
        rcases List.mem_append.1 hm with hm | hm
        · exact hmem hm
        · exact hne (Prod.mk.inj (List.mem_singleton.1 hm))
      · refine .inr ⟨e, List.mem_append_left _ he, ?_⟩
        rw [hold e he]
        exact hab
      · exact .inr ⟨_, List.mem_append_right _ List.mem_cons_self,
          .inl ⟨hab.1, hab.2.trans hthis.symm⟩⟩
      · exact .inr ⟨_, List.mem_append_right _ List.mem_cons_self,
          .inr ⟨hab.1.trans hthis.symm, hab.2⟩⟩
    · rintro (⟨hab, hmem⟩ | ⟨e, he, hab⟩)
      · refine .inl ⟨.inl ⟨hab, fun hm => hmem (List.mem_append_left _ hm)⟩, ?_⟩
        rintro ⟨rfl, rfl⟩
        exact hmem (List.mem_append_right _ List.mem_cons_self)
      · rcases List.mem_append.1 he with hdone | he
        · rw [hold e hdone] at hab
          refine .inl ⟨.inr ⟨e, hdone, hab⟩, ?_⟩
          rintro ⟨rfl, rfl⟩
          rcases hab with ⟨-, hb⟩ | ⟨ha, -⟩
          · exact absurd hb (h.not_via hdone htarget)
          · exact absurd ha (h.not_via hdone hsource)
        · rw [List.mem_singleton.1 he, hthis] at hab
          exact .inr hab
  · intro i hphi
    obtain ⟨inst', hi'⟩ := DataFlow.inst_of_isPhi hphi
    rcases hsplit.inst_cases h.coherent hi' with ⟨rfl, rfl⟩ | ⟨inst, hi, -⟩
    · rw [DataFlow.isPhi_of_inst hi'] at hphi
      cases hphi
    · rw [(hsplit.kinds hi).1] at hphi
      rw [hsplit.result? hi]
      exact h.phis hphi

theorem not_leads (h : f.Routed c done via) (hclosed : f.Closed) (he : e ∈ done) :
    ¬ c.Leads e.1 e.2 := by
  have hl := h.edges e he
  have htarget : e.2 ∈ f.blocks := hclosed _ hl.mem_blocks _ hl
  rw [h.leads_iff]
  rintro (⟨-, hn⟩ | ⟨e', he', ⟨-, hb⟩ | ⟨ha, -⟩⟩)
  · exact hn he
  · exact h.not_via he' htarget hb
  · exact h.not_via he' hl.mem_blocks ha

theorem between (h : f.Routed c done via) (hclosed : f.Closed) (he : e ∈ done) :
    c.Between (via e) e.1 e.2 where
  enter := h.leads_iff.2 (.inr ⟨e, he, .inl ⟨rfl, rfl⟩⟩)
  leave := h.leads_iff.2 (.inr ⟨e, he, .inr ⟨rfl, rfl⟩⟩)
  sole_pred := by
    intro x hx
    rcases h.leads_iff.1 hx with ⟨hl, -⟩ | ⟨e', he', ⟨hx, hee⟩ | ⟨-, hee⟩⟩
    · exact absurd (hclosed _ hl.mem_blocks _ hl) (h.fresh e he)
    · rw [h.distinct e he e' he' hee]
      exact hx
    · have hl := h.edges e' he'
      exact absurd hee.symm (h.not_via he (hclosed _ hl.mem_blocks _ hl))
  sole_succ := by
    intro y hy
    rcases h.leads_iff.1 hy with ⟨hl, -⟩ | ⟨e', he', ⟨hee, -⟩ | ⟨hee, hy⟩⟩
    · exact absurd hl.mem_blocks (h.fresh e he)
    · exact absurd hee.symm (h.not_via he (h.edges e' he').mem_blocks)
    · rw [h.distinct e he e' he' hee]
      exact hy

theorem original_succ (h : f.Routed c done via) (ha : a ∈ f.blocks) (hab : c.Leads a b) :
    ∃ b', f.Leads a b' ∧ b = if (a, b') ∈ done then via (a, b') else b' := by
  rcases h.leads_iff.1 hab with ⟨hl, hn⟩ | ⟨⟨u, v⟩, he, ⟨rfl, rfl⟩ | ⟨hae, -⟩⟩
  · exact ⟨b, hl, (if_neg hn).symm⟩
  · exact ⟨v, h.edges (a, v) he, (if_pos he).symm⟩
  · exact absurd hae (h.not_via he ha)

theorem original_pred (h : f.Routed c done via) (hb : b ∈ f.blocks) (hab : c.Leads a b) :
    ∃ a', f.Leads a' b ∧ a = if (a', b) ∈ done then via (a', b) else a' := by
  rcases h.leads_iff.1 hab with ⟨hl, hn⟩ | ⟨⟨u, v⟩, he, ⟨-, hbe⟩ | ⟨rfl, rfl⟩⟩
  · exact ⟨a, hl, (if_neg hn).symm⟩
  · exact absurd hbe (h.not_via he hb)
  · exact ⟨u, h.edges (u, b) he, (if_pos he).symm⟩

theorem not_critical (h : f.Routed c done via) (hclosed : f.Closed)
    (hall : ∀ a b, f.Leads a b → f.Forks a → f.Merges b → (a, b) ∈ done) (hab : c.Leads a b) :
    ¬ (c.Forks a ∧ c.Merges b) := by
  rintro ⟨⟨x, y, hxy, hx, hy⟩, ⟨p, q, hpq, hp, hq⟩⟩
  rcases h.leads_iff.1 hab with ⟨hl, hn⟩ | ⟨e, he, ⟨-, rfl⟩ | ⟨rfl, -⟩⟩
  · have ha : a ∈ f.blocks := hl.mem_blocks
    obtain ⟨x', hx', rfl⟩ := h.original_succ ha hx
    obtain ⟨y', hy', rfl⟩ := h.original_succ ha hy
    have hb : b ∈ f.blocks := hclosed _ ha _ hl
    obtain ⟨p', hp', rfl⟩ := h.original_pred hb hp
    obtain ⟨q', hq', rfl⟩ := h.original_pred hb hq
    refine hn (hall a b hl ⟨x', y', ?_, hx', hy'⟩ ⟨p', q', ?_, hp', hq'⟩)
    · rintro rfl
      exact hxy rfl
    · rintro rfl
      exact hpq rfl
  · have hbetween := h.between hclosed he
    exact hpq ((hbetween.sole_pred hp).trans (hbetween.sole_pred hq).symm)
  · have hbetween := h.between hclosed he
    exact hxy ((hbetween.sole_succ hx).trans (hbetween.sole_succ hy).symm)

end Routed

end Func

theorem one_lt_length_iff {α : Type} {xs : List α} (h : xs.Nodup) :
    1 < xs.length ↔ ∃ x y, x ≠ y ∧ x ∈ xs ∧ y ∈ xs := by
  constructor
  · intro hlt
    refine ⟨xs[0], xs[1], fun he => ?_, List.getElem_mem _, List.getElem_mem _⟩
    exact absurd ((h.getElem_inj_iff).1 he) (by decide)
  · rintro ⟨x, y, hne, hx, hy⟩
    cases xs with
    | nil => cases hx
    | cons a rest =>
      cases rest with
      | nil =>
        rw [List.mem_singleton.1 hx, List.mem_singleton.1 hy] at hne
        exact absurd rfl hne
      | cons b rest => simp

theorem Func.successors_nodup {f : Func} {b : BlockId} {ss : List BlockId}
    (h : f.successors b = .ok ss) :
    ss.Nodup := by
  obtain ⟨t?, -, h⟩ := bind_eq_ok.1 h
  cases t? with
  | none =>
    cases h
    exact List.nodup_nil
  | some t =>
    obtain ⟨inst, -, h⟩ := bind_eq_ok.1 h
    cases h
    exact nodup_eraseDups _

namespace PhiLowering

open Func (Routed)

variable {f : Func}

/-- The edges from forks to merges are found, each once. -/
theorem criticalEdges_ok (hclosed : f.Closed) (hproper : f.layout.Proper) :
    ∃ es, criticalEdges f = .ok es ∧ es.Nodup ∧
    ∀ a b, (a, b) ∈ es ↔ f.Leads a b ∧ f.Forks a ∧ f.Merges b := by
  classical
  obtain ⟨edges, hedges, hsnap⟩ := Edges.ofFunc_ok f
  have hnext : ∃ next : BlockId → List BlockId, ∀ a ∈ f.blocks, f.successors a = .ok (next a) := by
    refine ⟨fun a => ((f.successors a).toOption).getD [], fun a ha => ?_⟩
    obtain ⟨ss, hss⟩ := Func.successors_ok ha
    simp only [hss]
    rfl
  obtain ⟨next, hnext⟩ := hnext
  have hleads : ∀ {a b}, a ∈ f.blocks → (f.Leads a b ↔ b ∈ next a) := by
    intro a b ha
    constructor
    · rintro ⟨ss, hss, hb⟩
      cases (hnext a ha).symm.trans hss
      exact hb
    · exact fun hb => ⟨_, hnext a ha, hb⟩
  have hmem : ∀ {a b}, (a, b) ∈ f.blocks.flatMap (fun a => (next a).map fun b => (a, b)) ↔
      f.Leads a b := by
    intro a b
    rw [List.mem_flatMap]
    constructor
    · rintro ⟨a', ha', hm⟩
      obtain ⟨b', hb', he⟩ := List.mem_map.1 hm
      cases he
      exact (hleads ha').2 hb'
    · exact fun hl => ⟨a, hl.mem_blocks, List.mem_map.2 ⟨b, (hleads hl.mem_blocks).1 hl, rfl⟩⟩
  have hcritical : ∀ e ∈ f.blocks.flatMap (fun a => (next a).map fun b => (a, b)),
      edges.isCritical e.1 e.2 = .ok (decide (f.Forks e.1 ∧ f.Merges e.2)) := by
    rintro ⟨a, b⟩ he
    have hl := hmem.1 he
    have hforks : 1 < (next a).length ↔ f.Forks a := by
      rw [one_lt_length_iff (Func.successors_nodup (hnext a hl.mem_blocks))]
      simp only [Func.Forks, hleads hl.mem_blocks]
    obtain ⟨ps, hps, hpred⟩ := hsnap.preds b (hclosed _ hl.mem_blocks _ hl)
    have hmerges : 1 < ps.length ↔ f.Merges b := by
      rw [one_lt_length_iff (hsnap.distinct hps)]
      simp only [Func.Merges, hpred]
    unfold Edges.isCritical
    rw [hsnap.succs a hl.mem_blocks, hnext a hl.mem_blocks, hps]
    simp only [ok_bind]
    by_cases hfork : f.Forks a
    · rw [if_neg (Nat.not_le.2 (hforks.2 hfork))]
      simp only [hmerges, hfork, true_and, pure_eq_ok]
    · rw [if_pos (Nat.not_lt.1 fun hlt => hfork (hforks.1 hlt))]
      simp only [hfork, false_and, decide_false]
      rfl
  have hall : f.blocks.mapM (fun a => do return (← edges.succs a).map fun b => (a, b)) =
      .ok (f.blocks.map fun a => (next a).map fun b => (a, b)) := by
    refine mapM_of_forall fun a ha => ?_
    rw [hsnap.succs a ha, hnext a ha]
    rfl
  refine ⟨(f.blocks.flatMap fun a => (next a).map fun b => (a, b)).filter fun e =>
    decide (f.Forks e.1 ∧ f.Merges e.2), ?_, ?_, ?_⟩
  · unfold criticalEdges
    rw [hedges, ok_bind, hall, ok_bind, ← List.flatMap_def]
    exact filterM_of_forall hcritical
  · refine List.Nodup.filter _ (List.nodup_flatMap.2 ⟨fun a ha => ?_, ?_⟩)
    · exact (Func.successors_nodup (hnext a ha)).map fun x y he => (Prod.mk.inj he).2
    · refine hproper.blocks_nodup.imp fun {a a'} hne e he he' => ?_
      obtain ⟨x, -, rfl⟩ := List.mem_map.1 he
      obtain ⟨y, -, hey⟩ := List.mem_map.1 he'
      exact hne (Prod.mk.inj hey).1.symm
  · intro a b
    rw [List.mem_filter, hmem, decide_eq_true_eq]

/-- Leading all edges from forks to merges through blocks of their own goes through. What holds of
the function and is not lost with any edge that is led elsewhere holds in the end. -/
theorem splitCriticalEdges_preserves {b : Builder} (hc : b.func.Coherent) (hs : b.func.WellShaped)
    {P : Func → Prop} (hstart : P b.func)
    (hstep : ∀ {g g' source target split j}, P g → g.Leads source target →
      g.Split g' source target split j → P g') :
    (splitCriticalEdges b).Yields fun r => P r.2.func ∧ ∃ es via, b.func.Routed r.2.func es via ∧
      (∀ u v, (u, v) ∈ es ↔ b.func.Leads u v ∧ b.func.Forks u ∧ b.func.Merges v) ∧
      r.1 = !es.isEmpty ∧ (es = [] → r.2 = b) := by
  obtain ⟨es, hes, hnodup, hmem⟩ := criticalEdges_ok hs.closed hc.layout
  unfold splitCriticalEdges
  refine (Run.yields_lift ⟨es, hes, rfl⟩).bind ?_
  rintro _ rfl
  refine (Run.yields_foldlM (fun done c => (∃ via, b.func.Routed c.func done via) ∧ P c.func ∧
    (done = [] → c = b)) ⟨⟨fun e => e.1, .start hc hs⟩, hstart, fun _ => rfl⟩ ?_).bind ?_
  · rintro past ⟨source, target⟩ post c hsplit ⟨⟨via, hc'⟩, hP, -⟩
    have he : (source, target) ∈ es := hsplit ▸ List.mem_append_right _ List.mem_cons_self
    have hl : b.func.Leads source target := ((hmem _ _).1 he).1
    have hnew : (source, target) ∉ past := by
      rw [hsplit] at hnodup
      exact fun hm => (List.nodup_append.1 hnodup).2.2 _ hm _ List.mem_cons_self rfl
    have hlead : c.func.Leads source target := hc'.leads_iff.2 (.inl ⟨hl, hnew⟩)
    refine (splitEdge_yields hc'.coherent hc'.shape hlead).mono ?_
    rintro d ⟨split, j, hd⟩
    exact ⟨⟨_, hc'.step hs.closed hl hnew hd⟩, hstep hP hlead hd, fun hn => absurd hn (by simp)⟩
  · rintro d ⟨⟨via, hd⟩, hP, hnil⟩
    exact Run.yields_pure ⟨hP, es, via, hd, hmem, rfl, hnil⟩

end PhiLowering

end MiddleEnd
