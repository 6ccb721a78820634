import MiddleEnd.Proofs.Detours
import MiddleEnd.Proofs.PreheaderEdits
import MiddleEnd.Proofs.UnreachableBlocks

/-!
# A block in front of a header

The function with the block in front is verified if the function without it was, and it returns what
that one returned. Where control went from a block outside to the header it now comes by the new
block, whose phis hold what the phis of the header then take; everywhere else it goes as before.
-/

namespace MiddleEnd

open DataFlow (reroute)

theorem Frame.Goes.mapBlocks {f : Func} {s : Frame} {inst : Inst} {c : BlockId}
    (hg : Goes f s inst c) (g : BlockId → BlockId) : Goes f s (inst.mapBlocks g) (g c) := by
  cases hg with
  | jump => exact .jump
  | @branch op x w t e hx =>
    rw [apply_ite g]
    exact .branch hx

namespace Func

/-- All the blocks outside that led to the header lead to the block in front of it, and all phis of
the header are split. -/
structure Fronted (f f' : Func) (entry header front : BlockId) (outside : List BlockId)
    (xs joins : List InstId) (k : InstId) (ρ : InstId → Inst → Inst) : Prop
    extends f.Fronting f' header front outside (xs.takeWhile f.flow.isPhi) outside joins [k] ρ where
  formed : f.Formed entry
  header_insts : f.insts header = .ok xs
  enters : ∀ a ∈ outside, f.Leads a header
  entered : ∃ a, a ∈ outside

namespace Fronted

variable {f f' : Func} {entry header front b : BlockId} {outside : List BlockId}
  {xs joins ys : List InstId} {k i : InstId} {ρ : InstId → Inst → Inst} {inst : Inst}
  (h : f.Fronted f' entry header front outside xs joins k ρ)

include h

theorem header_mem : header ∈ f.blocks := Layout.mem_blocks_iff.2 ⟨xs, h.header_insts⟩

theorem ne_front (hb : b ∈ f.blocks) : b ≠ front := fun he => h.fresh (he ▸ hb)

theorem header_ne : header ≠ front := h.ne_front h.header_mem

theorem entry_ne : entry ≠ front := h.ne_front (Func.entry_mem h.formed.starts)

theorem split_iff (hys : f.insts b = .ok ys) (hi : i ∈ ys) (hinst : f.flow.inst? i = some inst) :
    i ∈ xs.takeWhile f.flow.isPhi ↔ b = header ∧ inst.op.isPhi = true := by
  constructor
  · intro hm
    refine ⟨h.formed.coherent.layout.one_block hys h.header_insts hi
      ((List.takeWhile_prefix _).subset hm), ?_⟩
    rw [← DataFlow.isPhi_of_inst hinst]
    exact List.all_eq_true.1 List.all_takeWhile i hm
  · rintro ⟨rfl, hphi⟩
    have := h.header_insts
    rw [hys] at this
    cases this
    exact h.formed.shape.mem_phis hys hi ((DataFlow.isPhi_of_inst hinst).trans hphi)

theorem unsplit (hys : f.insts b = .ok ys) (hi : i ∈ ys) (hinst : f.flow.inst? i = some inst)
    (hn : ¬ (b = header ∧ inst.op.isPhi = true)) :
    ρ i inst = if b ∈ outside ∧ inst.op.isTerminator = true then inst.mapBlocks
      (reroute header front) else inst :=
  h.others_inst hys hi hinst fun hm => hn ((h.split_iff hys hi hinst).1 hm)

theorem unsplit_args (hys : f.insts b = .ok ys) (hi : i ∈ ys) (hinst : f.flow.inst? i = some inst)
    (hn : ¬ (b = header ∧ inst.op.isPhi = true)) : (ρ i inst).args = inst.args := by
  rw [h.unsplit hys hi hinst hn]
  split
  · exact Inst.args_mapBlocks _ _
  · rfl

theorem op_eq (hinst : f.flow.inst? i = some inst) : (ρ i inst).op = inst.op := by
  obtain ⟨b, ys, hys, hi⟩ := h.formed.coherent.home hinst
  by_cases hm : i ∈ xs.takeWhile f.flow.isPhi
  · obtain ⟨v, hρ, -⟩ := h.gathered hm hinst
    rw [hρ, Inst.op_addEdge, Inst.op_keepEdges]
  · rw [h.others_inst hys hi hinst hm]
    split
    · exact Inst.op_mapBlocks _ _
    · rfl

theorem isPhi_eq (hinst : f.flow.inst? i = some inst) : f'.flow.isPhi i = f.flow.isPhi i := by
  rw [DataFlow.isPhi_of_inst hinst, DataFlow.isPhi_of_inst (h.inst? hinst), h.op_eq hinst]

theorem isTerminator_eq (hinst : f.flow.inst? i = some inst) :
    f'.flow.isTerminator i = f.flow.isTerminator i := by
  rw [DataFlow.isTerminator_of_inst hinst, DataFlow.isTerminator_of_inst (h.inst? hinst),
    h.op_eq hinst]

theorem isPhi_mem (hys : f.insts b = .ok ys) :
    ∀ j ∈ ys, f'.flow.isPhi j = f.flow.isPhi j := fun _ hj => by
  obtain ⟨inst, hinst⟩ := h.formed.coherent.inst_of_mem hys hj
  exact h.isPhi_eq hinst

theorem split_eq (hys : f.insts b = .ok ys) :
    ys.takeWhile f'.flow.isPhi = ys.takeWhile f.flow.isPhi ∧
    ys.dropWhile f'.flow.isPhi = ys.dropWhile f.flow.isPhi := by
  have htake := takeWhile_map_of (g := id) (h.isPhi_mem hys)
  have hdrop := dropWhile_map_of (g := id) (h.isPhi_mem hys)
  rw [List.map_id, List.map_id] at htake hdrop
  exact ⟨htake, hdrop⟩

theorem insts_cases (hys : f'.insts b = .ok ys) :
    (b = front ∧ ys = joins ++ [k]) ∨ (b ≠ front ∧ f.insts b = .ok ys) := by
  by_cases hb : b = front
  · subst hb
    rw [h.here] at hys
    cases hys
    exact .inl ⟨rfl, rfl⟩
  · exact .inr ⟨hb, (h.others hb).symm.trans hys⟩

theorem jump : f'.flow.inst? k = some (.jump .br header) := (h.jumps k List.mem_cons_self).1

theorem join (hi : i ∈ joins) :
    ∃ phi inst e r, phi ∈ xs.takeWhile f.flow.isPhi ∧ f.flow.inst? phi = some inst ∧
      e ∈ inst.edges ∧ e.2 ∈ outside ∧
      f'.flow.inst? i = some (inst.keepEdges fun p => decide (p ∈ outside)) ∧
    f'.flow.result? i = some r ∧ f'.flow.origin? r = some (.result (f.tyOf e.1) i) := by
  obtain ⟨xs', phi, inst, e, r, hxs, hphi, hinst, hop, he, ho, hi', hr, hor⟩ := h.joined i hi
  rw [h.header_insts] at hxs
  cases hxs
  exact ⟨phi, inst, e, r, (h.split_iff h.header_insts hphi hinst).2 ⟨rfl, hop⟩, hinst, he,
    ho, hi', hr, hor⟩

theorem header_phi {phi : InstId} (hphi : phi ∈ xs.takeWhile f.flow.isPhi)
    (hinst : f.flow.inst? phi = some inst) :
    (∃ args preds, inst = .phi .phi args preds) ∧ inst.Even ∧ inst.blocks.Nodup ∧
      ∀ p, p ∈ inst.blocks ↔ f.Leads p header := by
  have hx := (List.takeWhile_prefix _).subset hphi
  have hisPhi : f.flow.isPhi phi = true := List.all_eq_true.1 List.all_takeWhile phi hphi
  exact ⟨Verify.phi_of_form (h.formed.forms hinst)
    ((DataFlow.isPhi_of_inst hinst).symm.trans hisPhi), h.formed.coherent.flow.even hinst,
    h.formed.shape.phi_edges h.header_insts hx hisPhi hinst⟩

theorem isPhi_join (hi : i ∈ joins) : f'.flow.isPhi i = true := by
  obtain ⟨phi, inst, e, r, hphi, hinst, -, -, hi', -⟩ := h.join hi
  obtain ⟨⟨args, preds, rfl⟩, -⟩ := h.header_phi hphi hinst
  rw [DataFlow.isPhi_of_inst hi', Inst.op_keepEdges]
  rfl

theorem inst_cases {inst' : Inst} (hi : f'.flow.inst? i = some inst') :
    i ∈ joins ∨ i = k ∨ ∃ inst, f.flow.inst? i = some inst ∧ inst' = ρ i inst := by
  obtain ⟨b, ys, hys, hmem⟩ := h.coherent.home hi
  rcases h.insts_cases hys with ⟨-, rfl⟩ | ⟨-, hys⟩
  · rcases List.mem_append.1 hmem with hm | hm
    · exact .inl hm
    · exact .inr (.inl (List.mem_singleton.1 hm))
  · obtain ⟨inst, hinst⟩ := h.formed.coherent.inst_of_mem hys hmem
    rw [h.inst? hinst] at hi
    cases hi
    exact .inr (.inr ⟨inst, hinst, rfl⟩)

theorem leads_iff {a : BlockId} :
    f'.Leads a b ↔ (a = front ∧ b = header) ∨ (a ∈ outside ∧ b = front) ∨
    (f.Leads a b ∧ ¬ (a ∈ outside ∧ b = header)) := by
  by_cases ha : a = front
  · subst ha
    rw [Func.leads_last_iff h.here h.jump rfl]
    have hnot : a ∉ outside := fun hm => h.fresh (h.enters a hm).mem_blocks
    have hnone : ¬ f.Leads a b := fun hl => h.fresh hl.mem_blocks
    simp only [Inst.blocks, List.mem_singleton, true_and, hnot, hnone, false_and, or_false]
  · by_cases hmem : a ∈ f.blocks
    · obtain ⟨ys, hys⟩ := Layout.mem_blocks_iff.1 hmem
      obtain ⟨pre, term, rfl, hterm, -⟩ := h.formed.shape.ended hys
      obtain ⟨inst, hinst⟩ := DataFlow.inst_of_isTerminator hterm
      have hmt : term ∈ pre ++ [term] := List.mem_append_right _ List.mem_cons_self
      have hop : inst.op.isTerminator = true :=
        (DataFlow.isTerminator_of_inst hinst).symm.trans hterm
      have hplain : inst.op.isPhi = false := Opcode.not_phi_of_terminator hop
      have hρ := h.unsplit hys hmt hinst fun hn => absurd hn.2 (Bool.eq_false_iff.1 hplain)
      have hnamed : front ∉ inst.blocks := fun hm => h.fresh (h.formed.shape.targets hinst _ hm)
      rw [Func.leads_last_iff ((h.others ha).trans hys) (h.inst? hinst)
        ((congrArg _ (h.op_eq hinst)).trans hop), Func.leads_last_iff hys hinst hop, hρ]
      by_cases ho : a ∈ outside
      · have hhead : header ∈ inst.blocks := (Func.leads_last_iff hys hinst hop).1 (h.enters a ho)
        rw [if_pos ⟨ho, hop⟩, Inst.blocks_mapBlocks, List.mem_map]
        constructor
        · rintro ⟨c, hc, rfl⟩
          by_cases hch : c = header
          · exact .inr (.inl ⟨ho, if_pos hch⟩)
          · rw [DataFlow.reroute_of_ne hch]
            exact .inr (.inr ⟨hc, fun hn => hch hn.2⟩)
        · rintro (⟨he, -⟩ | ⟨-, rfl⟩ | ⟨hb, hn⟩)
          · exact absurd he ha
          · exact ⟨header, hhead, if_pos rfl⟩
          · exact ⟨b, hb, DataFlow.reroute_of_ne fun he => hn ⟨ho, he⟩⟩
      · rw [if_neg fun hn => ho hn.1]
        simp only [ha, ho, false_and, false_or, not_false_eq_true, and_true]
    · have hnone : a ∉ f'.blocks := fun hm => (h.mem_blocks.1 hm).elim hmem ha
      have hold : ¬ f.Leads a b := fun hl => hmem hl.mem_blocks
      have hnew : ¬ f'.Leads a b := fun hl => hnone hl.mem_blocks
      have ho : a ∉ outside := fun hm => hmem (h.enters a hm).mem_blocks
      simp only [hold, hnew, ho, ha, false_and, or_false]

theorem detour : Detour f.Leads f'.Leads entry (· ∈ outside) header front where
  edge_iff := h.leads_iff
  enters {a} ha := h.enters a ha
  source_ne hl := h.ne_front hl.mem_blocks
  target_ne hl := by
    obtain ⟨_, _, _, -, -, hinst, -, hb⟩ := Func.leads_iff.1 hl
    exact h.ne_front (h.formed.shape.targets hinst _ hb)
  root_ne := h.entry_ne
  header_ne := h.header_ne

theorem split_blocks {phi : InstId} (hphi : phi ∈ xs.takeWhile f.flow.isPhi)
    (hinst : f.flow.inst? phi = some inst) :
    (ρ phi inst).blocks.Nodup ∧ ∀ p, p ∈ (ρ phi inst).blocks ↔ f'.Leads p header := by
  obtain ⟨⟨args, preds, hform⟩, heven, hnd, hpreds⟩ := h.header_phi hphi hinst
  have hphi' : ∃ op args preds, inst = .phi op args preds := ⟨_, args, preds, hform⟩
  obtain ⟨v, hρ, -⟩ := h.gathered hphi hinst
  have hmem : ∀ p, p ∈ (inst.keepEdges fun p => decide (p ∉ outside)).blocks ↔ f.Leads p header ∧
      p ∉ outside := fun p => by
    rw [Inst.mem_blocks_keepEdges heven hphi', hpreds, decide_eq_true_eq]
  rw [hρ, Inst.blocks_addEdge (Inst.keepEdges_phi hphi')]
  refine ⟨?_, fun p => ?_⟩
  · refine List.nodup_append.2 ⟨Inst.nodup_blocks_keepEdges heven hnd, List.nodup_singleton _, ?_⟩
    rintro p hp q hq rfl
    exact h.fresh (List.mem_singleton.1 hq ▸ ((hmem p).1 hp).1.mem_blocks)
  · rw [List.mem_append, hmem, List.mem_singleton, h.leads_iff]
    have hne := h.header_ne
    grind

theorem join_blocks {inst' : Inst} (hi : i ∈ joins) (hi' : f'.flow.inst? i = some inst') :
    inst'.blocks.Nodup ∧ ∀ p, p ∈ inst'.blocks ↔ f'.Leads p front := by
  obtain ⟨phi, inst, e, r, hphi, hinst, -, -, hjoin, -⟩ := h.join hi
  rw [hjoin] at hi'
  cases hi'
  obtain ⟨⟨args, preds, hform⟩, heven, hnd, hpreds⟩ := h.header_phi hphi hinst
  refine ⟨Inst.nodup_blocks_keepEdges heven hnd, fun p => ?_⟩
  rw [Inst.mem_blocks_keepEdges heven ⟨_, args, preds, hform⟩, hpreds, decide_eq_true_eq,
    h.detour.edge_to_new]
  exact ⟨fun hp => hp.2, fun hp => ⟨h.enters p hp, hp⟩⟩

theorem phi_kept (hys : f.insts b = .ok ys) (hi : i ∈ ys) (hinst : f.flow.inst? i = some inst)
    (hphi : inst.op.isPhi = true) (hb : b ≠ header) : ρ i inst = inst := by
  rw [h.unsplit hys hi hinst fun hn => hb hn.1, if_neg]
  rintro ⟨-, hterm⟩
  rw [Opcode.not_phi_of_terminator hterm] at hphi
  cases hphi

theorem kept_blocks (hys : f.insts b = .ok ys) (hi : i ∈ ys) (hinst : f.flow.inst? i = some inst)
    (hphi : inst.op.isPhi = true) (hb : b ≠ header) :
    (ρ i inst).blocks.Nodup ∧ ∀ p, p ∈ (ρ i inst).blocks ↔ f'.Leads p b := by
  obtain ⟨hnd, hpreds⟩ :=
    h.formed.shape.phi_edges hys hi ((DataFlow.isPhi_of_inst hinst).trans hphi) hinst
  rw [h.phi_kept hys hi hinst hphi hb]
  refine ⟨hnd, fun p => ?_⟩
  have hbf : b ≠ front := h.ne_front (Layout.mem_blocks_iff.2 ⟨ys, hys⟩)
  rw [hpreds, h.leads_iff]
  grind

theorem targets {inst' : Inst} (hi : f'.flow.inst? i = some inst') :
    ∀ c ∈ inst'.blocks, c ∈ f'.blocks := by
  intro c hc
  rw [h.mem_blocks]
  rcases h.inst_cases hi with hj | rfl | ⟨inst, hinst, rfl⟩
  · exact .inl (h.enters c (h.detour.edge_to_new.1 (((h.join_blocks hj hi).2 c).1 hc))).mem_blocks
  · rw [h.jump] at hi
    cases hi
    exact .inl (List.mem_singleton.1 hc ▸ h.header_mem)
  · obtain ⟨b, ys, hys, hmem⟩ := h.formed.coherent.home hinst
    by_cases hm : i ∈ xs.takeWhile f.flow.isPhi
    · exact h.mem_blocks.1 (((h.split_blocks hm hinst).2 c).1 hc).mem_blocks
    · rw [h.others_inst hys hmem hinst hm] at hc
      split at hc
      · rw [Inst.blocks_mapBlocks] at hc
        obtain ⟨d, hd, rfl⟩ := List.mem_map.1 hc
        by_cases hdh : d = header
        · exact .inr (if_pos hdh)
        · rw [DataFlow.reroute_of_ne hdh]
          exact .inl (h.formed.shape.targets hinst d hd)
      · exact .inl (h.formed.shape.targets hinst c hc)

theorem wellShaped : f'.WellShaped := by
  refine ⟨fun {b ys} hys => ?_, h.targets⟩
  rcases h.insts_cases hys with ⟨rfl, rfl⟩ | ⟨hb, hys'⟩
  · refine ⟨joins, [], k, rfl, fun i hi => h.isPhi_join hi, fun i hi => ?_, ?_,
      fun {i inst'} hi hi' => h.join_blocks hi hi'⟩
    · cases hi
    · rw [DataFlow.isTerminator_of_inst h.jump]
      rfl
  · obtain ⟨phis, body, last, rfl, hs⟩ := h.formed.shape.shaped hys'
    have hflags : ∀ i ∈ phis ++ (body ++ [last]), f'.flow.isPhi i = f.flow.isPhi i ∧
        f'.flow.isTerminator i = f.flow.isTerminator i := fun i hi => by
      obtain ⟨inst, hinst⟩ := h.formed.coherent.inst_of_mem hys' hi
      exact ⟨h.isPhi_eq hinst, h.isTerminator_eq hinst⟩
    refine ⟨phis, body, last, rfl, fun i hi => ?_, fun i hi => ?_, ?_, fun {i inst'} hi hi' => ?_⟩
    · rw [(hflags i (List.mem_append_left _ hi)).1]
      exact hs.isPhi i hi
    · have hmem : i ∈ phis ++ (body ++ [last]) :=
        List.mem_append_right _ (List.mem_append_left _ hi)
      rw [(hflags i hmem).1, (hflags i hmem).2]
      exact hs.plain i hi
    · rw [(hflags last (List.mem_append_right _ (List.mem_append_right _ List.mem_cons_self))).2]
      exact hs.isTerminator
    · have hmem : i ∈ phis ++ (body ++ [last]) := List.mem_append_left _ hi
      obtain ⟨inst, hinst⟩ := h.formed.coherent.inst_of_mem hys' hmem
      have hphi : inst.op.isPhi = true := (DataFlow.isPhi_of_inst hinst).symm.trans (hs.isPhi i hi)
      rw [h.inst? hinst] at hi'
      cases hi'
      by_cases hbh : b = header
      · subst hbh
        exact h.split_blocks ((h.split_iff hys' hmem hinst).2 ⟨rfl, hphi⟩) hinst
      · exact h.kept_blocks hys' hmem hinst hphi hbh

theorem forms {inst' : Inst} (hi : f'.flow.inst? i = some inst') :
    Verify.formFits inst' = true := by
  rcases h.inst_cases hi with hj | rfl | ⟨inst, hinst, rfl⟩
  · obtain ⟨phi, inst, e, r, hphi, hinst, -, -, hjoin, -⟩ := h.join hj
    rw [hjoin] at hi
    cases hi
    obtain ⟨⟨args, preds, rfl⟩, -⟩ := h.header_phi hphi hinst
    rfl
  · rw [h.jump] at hi
    cases hi
    rfl
  · obtain ⟨b, ys, hys, hmem⟩ := h.formed.coherent.home hinst
    have hform := h.formed.forms hinst
    by_cases hm : i ∈ xs.takeWhile f.flow.isPhi
    · obtain ⟨⟨args, preds, rfl⟩, -⟩ := h.header_phi hm hinst
      obtain ⟨v, hρ, -⟩ := h.gathered hm hinst
      rw [hρ]
      rfl
    · rw [h.others_inst hys hmem hinst hm]
      split
      · cases inst <;> exact hform
      · exact hform

theorem formed_front : f'.Formed entry := by
  refine ⟨h.coherent, h.first h.formed.starts, h.wellShaped, h.forms, fun {ys} hys i hi => ?_⟩
  rcases h.insts_cases hys with ⟨he, -⟩ | ⟨-, hys⟩
  · exact absurd he h.entry_ne
  · rw [h.isPhi_mem hys i hi]
    exact h.formed.bare hys i hi

theorem noCopies (hn : ∀ {i x y}, f.flow.inst? i ≠ some (.binary .copy x y)) {i : InstId}
    {x y : ValueId} :
    f'.flow.inst? i ≠ some (.binary .copy x y) := by
  intro hi
  rcases h.inst_cases hi with hj | rfl | ⟨inst, hinst, he⟩
  · have := h.isPhi_join hj
    rw [DataFlow.isPhi_of_inst hi] at this
    cases this
  · rw [h.jump] at hi
    cases hi
  · obtain ⟨b, ys, hys, hmem⟩ := h.formed.coherent.home hinst
    have hop := h.op_eq hinst
    rw [← he] at hop
    rw [h.unsplit hys hmem hinst fun hphi => by rw [← hop] at hphi; cases hphi.2] at he
    split at he
    · rename_i hterm
      rw [← hop] at hterm
      cases hterm.2
    · exact hn (he ▸ hinst)

theorem tyOf_eq {v : ValueId} {o : ValueDef} (hv : f.flow.origin? v = some o) :
    f'.tyOf v = f.tyOf v := by
  rw [Func.tyOf_eq hv, Func.tyOf_eq (h.origin? hv)]

theorem tyOf_arg {v : ValueId} (hinst : f.flow.inst? i = some inst) (hv : v ∈ inst.args) :
    f'.tyOf v = f.tyOf v := by
  obtain ⟨o, ho⟩ := h.formed.coherent.flow.operand hinst hv
  exact h.tyOf_eq ho

theorem yieldTy_eq (hinst : f.flow.inst? i = some inst) : f'.yieldTy i = f.yieldTy i :=
  yieldTy_congr h.formed.coherent.flow (h.result? hinst) fun _ ho => h.origin? ho

theorem phi_ty (ht : f.Typed) {phi : InstId} (hphi : phi ∈ xs.takeWhile f.flow.isPhi)
    (hinst : f.flow.inst? phi = some inst) {v : ValueId} (hv : v ∈ inst.args) :
    f.tyOf v = f.yieldTy phi := by
  obtain ⟨⟨args, preds, rfl⟩, -⟩ := h.header_phi hphi hinst
  exact ht hinst v hv

theorem outside_edge {phi : InstId} (hphi : phi ∈ xs.takeWhile f.flow.isPhi)
    (hinst : f.flow.inst? phi = some inst) {a : BlockId} (ha : a ∈ outside) :
    ∃ v, (v, a) ∈ inst.edges := by
  obtain ⟨⟨args, preds, hform⟩, heven, -, hpreds⟩ := h.header_phi hphi hinst
  have hmem := (hpreds a).2 (h.enters a ha)
  rw [← heven.blocks ⟨_, args, preds, hform⟩] at hmem
  obtain ⟨⟨v, _⟩, he, rfl⟩ := List.mem_map.1 hmem
  exact ⟨v, he⟩

theorem gathered_ty (ht : f.Typed) {phi : InstId} (hphi : phi ∈ xs.takeWhile f.flow.isPhi)
    (hinst : f.flow.inst? phi = some inst) {v : ValueId} (hv : f'.Gathers outside joins inst v) :
    f'.tyOf v = f.yieldTy phi := by
  rcases hv with hall | ⟨j, hj, hr, hj'⟩
  · obtain ⟨a, ha⟩ := h.entered
    obtain ⟨w, hw⟩ := h.outside_edge hphi hinst ha
    obtain rfl : w = v := hall _ hw ha
    rw [h.tyOf_arg hinst (Inst.arg_of_edge hw)]
    exact h.phi_ty ht hphi hinst (Inst.arg_of_edge hw)
  · obtain ⟨phi', inst', e, r, -, -, he, ho, hjoin, hr', hor⟩ := h.join hj
    rw [hr] at hr'
    cases hr'
    -- Both phis take the same from outside.
    have hsame : inst'.keepEdges (fun p => decide (p ∈ outside)) = inst.keepEdges fun p =>
        decide (p ∈ outside) :=
      Option.some.inj (hjoin.symm.trans hj')
    have he' : e ∈ inst.edges := by
      have hkept : e ∈ (inst'.keepEdges fun p => decide (p ∈ outside)).edges := by
        rw [Inst.edges_keepEdges]
        exact List.mem_filter.2 ⟨he, decide_eq_true ho⟩
      rw [hsame, Inst.edges_keepEdges] at hkept
      exact (List.mem_filter.1 hkept).1
    rw [Func.tyOf_eq hor]
    exact h.phi_ty ht hphi hinst (Inst.arg_of_edge he')

theorem join_ty (ht : f.Typed) {inst' : Inst} (hi : i ∈ joins)
    (hi' : f'.flow.inst? i = some inst') :
    f'.Rule f'.tyOf (f'.yieldTy i) inst' := by
  obtain ⟨phi, inst, e, r, hphi, hinst, he, -, hjoin, hr, hor⟩ := h.join hi
  rw [hjoin] at hi'
  cases hi'
  have hyield : f'.yieldTy i = f.yieldTy phi := by
    unfold Func.yieldTy
    rw [hr, Option.map_some, Option.getD_some, Func.tyOf_eq hor]
    exact h.phi_ty ht hphi hinst (Inst.arg_of_edge he)
  have hargs : ∀ v ∈ (inst.keepEdges fun p => decide (p ∈ outside)).args,
      f'.tyOf v = f'.yieldTy i := fun v hv => by
    have hv := Inst.args_keepEdges_subset hv
    rw [h.tyOf_arg hinst hv, hyield]
    exact h.phi_ty ht hphi hinst hv
  obtain ⟨⟨args, preds, rfl⟩, -⟩ := h.header_phi hphi hinst
  exact hargs

theorem split_ty (ht : f.Typed) {phi : InstId} (hphi : phi ∈ xs.takeWhile f.flow.isPhi)
    (hinst : f.flow.inst? phi = some inst) : f'.Rule f'.tyOf (f'.yieldTy phi) (ρ phi inst) := by
  obtain ⟨v, hρ, hv⟩ := h.gathered hphi hinst
  have hargs : ∀ w ∈ (inst.keepEdges fun p => decide (p ∉ outside)).args ++ [v],
      f'.tyOf w = f'.yieldTy phi := by
    intro w hw
    rw [h.yieldTy_eq hinst]
    rcases List.mem_append.1 hw with hw | hw
    · have hw := Inst.args_keepEdges_subset hw
      rw [h.tyOf_arg hinst hw]
      exact h.phi_ty ht hphi hinst hw
    · rw [List.mem_singleton.1 hw]
      exact h.gathered_ty ht hphi hinst hv
  obtain ⟨⟨args, preds, rfl⟩, -⟩ := h.header_phi hphi hinst
  rw [hρ]
  exact hargs

theorem typed (ht : f.Typed) : f'.Typed := by
  intro i inst' hi
  rcases h.inst_cases hi with hj | rfl | ⟨inst, hinst, rfl⟩
  · exact h.join_ty ht hj hi
  · rw [h.jump] at hi
    cases hi
    trivial
  · by_cases hm : i ∈ xs.takeWhile f.flow.isPhi
    · exact h.split_ty ht hm hinst
    · obtain ⟨b, ys, hys, hmem⟩ := h.formed.coherent.home hinst
      have hkept : f.Rule f.tyOf (f.yieldTy i) (ρ i inst) := by
        have hrule := ht hinst
        rw [h.others_inst hys hmem hinst hm]
        split
        · cases inst <;> exact hrule
        · exact hrule
      have hargs := h.unsplit_args hys hmem hinst fun hn => hm ((h.split_iff hys hmem hinst).2 hn)
      rw [h.yieldTy_eq hinst]
      refine (Inst.Matches.of_args (R := Eq) fun _ _ => rfl).rule ?_ h.sig h.imports ?_ hkept
      · rintro v _ hv rfl
        exact h.tyOf_arg hinst (hargs ▸ hv)
      · rintro - v _ hv rfl hreg
        obtain ⟨o, ho⟩ := h.formed.coherent.flow.operand hinst (hargs ▸ hv)
        rwa [h.origin? ho, ← ho]

theorem behind (hb : b ≠ front) {rest : List InstId} (hi : f.Behind f.Leads entry b rest i) :
    f'.Behind f'.Leads entry b rest i := by
  obtain ⟨home, zs, hzs, hmem, hg, hout⟩ := hi
  have hhome : home ≠ front := h.ne_front (Layout.mem_blocks_iff.2 ⟨zs, hzs⟩)
  exact ⟨home, zs, (h.others hhome).trans hzs, hmem, (h.detour.guards_iff hhome hb).2 hg, hout⟩

theorem stranded {v : ValueId} (hv : f.Stranded entry v) : f'.Stranded entry v := by
  obtain ⟨ty, i, home, zs, ho, hzs, hmem, hn⟩ := hv
  have hhome : home ≠ front := h.ne_front (Layout.mem_blocks_iff.2 ⟨zs, hzs⟩)
  exact ⟨ty, i, home, zs, h.origin? ho, (h.others hhome).trans hzs, hmem,
    fun hc => hn ((h.detour.connects_iff hhome).1 hc)⟩

theorem avail (hb : b ≠ front) {rest : List InstId} {v : ValueId}
    (hinst : f.flow.inst? i = some inst) (hv : v ∈ inst.args)
    (ha : f.Avail f.Leads entry b rest v ∨ f.Stranded entry v) :
    f'.Avail f'.Leads entry b rest v ∨ f'.Stranded entry v := by
  obtain ⟨o, ho⟩ := h.formed.coherent.flow.operand hinst hv
  refine ha.imp (fun ha ty j hres => ?_) h.stranded
  rw [h.origin? ho, ← ho] at hres
  exact h.behind hb (ha hres)

theorem gathered_avail (hd : f.Dominated entry) (hcon : Connects f'.Leads entry front)
    {phi : InstId} (hphi : phi ∈ xs.takeWhile f.flow.isPhi)
    (hinst : f.flow.inst? phi = some inst) {v : ValueId} (hv : f'.Gathers outside joins inst v) :
    f'.Avail f'.Leads entry front [] v ∨ f'.Stranded entry v := by
  rcases hv with hall | ⟨j, hj, hr, -⟩
  · have hop : inst.op.isPhi = true :=
      ((h.split_iff h.header_insts ((List.takeWhile_prefix _).subset hphi) hinst).1 hphi).2
    have hout : ∀ a ∈ outside, Connects f.Leads entry a → f.Avail f.Leads entry a [] v ∨
        f.Stranded entry v := by
      intro a ha hc
      obtain ⟨w, hw⟩ := h.outside_edge hphi hinst ha
      obtain rfl : w = v := hall _ hw ha
      exact hd.phis (hc.step (h.enters a ha)) h.header_insts ((List.takeWhile_prefix _).subset hphi)
        hinst hop hw hc
    by_cases hs : f.Stranded entry v
    · exact .inr (h.stranded hs)
    refine .inl fun ty j ho => ?_
    obtain ⟨a, ha⟩ := h.entered
    obtain ⟨w, hw⟩ := h.outside_edge hphi hinst ha
    obtain rfl : w = v := hall _ hw ha
    obtain ⟨o, how⟩ := h.formed.coherent.flow.operand hinst (Inst.arg_of_edge hw)
    have ho' : f.flow.origin? w = some (.result ty j) := by
      rw [how, ← h.origin? how, ho]
    obtain ⟨jnst, hj⟩ := DataFlow.hasInst_of_result (h.formed.coherent.flow.origin_result ho')
    obtain ⟨home, zs, hzs, hmem⟩ := h.formed.coherent.home hj
    have hhome : home ≠ front := h.ne_front (Layout.mem_blocks_iff.2 ⟨zs, hzs⟩)
    refine ⟨home, zs, (h.others hhome).trans hzs, hmem,
      h.detour.guards_new hhome hcon fun a ha hc => ?_,
      fun _ => List.not_mem_nil⟩
    obtain ⟨home', zs', hzs', hmem', hg, -⟩ := ((hout a ha hc).resolve_right hs) ho'
    obtain rfl := h.formed.coherent.layout.one_block hzs hzs' hmem hmem'
    exact hg
  · obtain ⟨-, -, e, r, -, -, -, -, -, hr', hor⟩ := h.join hj
    rw [hr] at hr'
    cases hr'
    refine .inl fun ty i ho => ?_
    rw [hor] at ho
    cases ho
    exact ⟨front, _, h.here, List.mem_append_left _ hj, hcon.guards_self, fun _ => List.not_mem_nil⟩

theorem dominated (hd : f.Dominated entry) : f'.Dominated entry := by
  constructor
  · intro b pre u post inst' v hcon hys hu hop hv
    rcases h.insts_cases hys with ⟨rfl, he⟩ | ⟨hb, hys⟩
    · -- What is not a phi in the new block is the jump.
      have hmem : u ∈ joins ++ [k] := he ▸ List.mem_append_right _ List.mem_cons_self
      rcases List.mem_append.1 hmem with hj | hj
      · rw [← DataFlow.isPhi_of_inst hu, h.isPhi_join hj] at hop
        cases hop
      · rw [List.mem_singleton.1 hj, h.jump] at hu
        cases hu
        cases hv
    · have hmem : u ∈ pre ++ u :: post := List.mem_append_right _ List.mem_cons_self
      obtain ⟨inst, hinst⟩ := h.formed.coherent.inst_of_mem hys hmem
      rw [h.inst? hinst] at hu
      cases hu
      rw [h.op_eq hinst] at hop
      rw [h.unsplit_args hys hmem hinst fun hn => absurd hn.2 (Bool.eq_false_iff.1 hop)] at hv
      exact h.avail hb hinst hv (hd.body ((h.detour.connects_iff hb).1 hcon) hys hinst hop hv)
  · intro b ys u inst' v p hcon hys hu hu' hop he hp
    rcases h.insts_cases hys with ⟨rfl, rfl⟩ | ⟨hb, hys⟩
    · rcases List.mem_append.1 hu with hj | hj
      · obtain ⟨phi, inst, -, -, hphi, hinst, -, -, hjoin, -⟩ := h.join hj
        rw [hjoin] at hu'
        cases hu'
        rw [Inst.edges_keepEdges] at he
        obtain ⟨he, ho⟩ := List.mem_filter.1 he
        have ho : p ∈ outside := of_decide_eq_true ho
        have hpf := h.ne_front (h.enters p ho).mem_blocks
        have hp := (h.detour.connects_iff hpf).1 hp
        have hx := (List.takeWhile_prefix _).subset hphi
        exact h.avail hpf hinst (Inst.arg_of_edge he)
          (hd.phis (hp.step (h.enters p ho)) h.header_insts hx hinst
          ((h.split_iff h.header_insts hx hinst).1 hphi).2 he hp)
      · rw [List.mem_singleton.1 hj, h.jump] at hu'
        cases hu'
        cases hop
    · obtain ⟨inst, hinst⟩ := h.formed.coherent.inst_of_mem hys hu
      rw [h.inst? hinst] at hu'
      cases hu'
      rw [h.op_eq hinst] at hop
      have hcon := (h.detour.connects_iff hb).1 hcon
      have hold : (v, p) ∈ inst.edges → f'.Avail f'.Leads entry p [] v ∨
          f'.Stranded entry v := fun he => by
        have hl :=
          ((h.formed.shape.phi_edges hys hu ((DataFlow.isPhi_of_inst hinst).trans hop) hinst).2 p).1
            (Inst.block_of_edge he)
        have hpf := h.ne_front hl.mem_blocks
        exact h.avail hpf hinst (Inst.arg_of_edge he)
          (hd.phis hcon hys hu hinst hop he ((h.detour.connects_iff hpf).1 hp))
      by_cases hbh : b = header
      · subst hbh
        have hphi := (h.split_iff hys hu hinst).2 ⟨rfl, hop⟩
        obtain ⟨w, hρ, hw⟩ := h.gathered hphi hinst
        obtain ⟨⟨args, preds, hform⟩, heven, -⟩ := h.header_phi hphi hinst
        rw [hρ, Inst.edges_addEdge (Inst.even_keepEdges _ heven) (Inst.keepEdges_phi ⟨_, args,
          preds, hform⟩), Inst.edges_keepEdges] at he
        rcases List.mem_append.1 he with he | he
        · exact hold (List.mem_filter.1 he).1
        · cases List.mem_singleton.1 he
          exact h.gathered_avail hd hp hphi hinst hw
      · rw [h.phi_kept hys hu hinst hop hbh] at he
        exact hold he

theorem rooted (hr : f.Rooted entry) : f'.Rooted entry := by
  have hentry : header ≠ entry := by
    rintro rfl
    obtain ⟨a, ha⟩ := h.entered
    exact hr.source a (h.enters a ha)
  refine ⟨h.formed_front, h.typed hr.typed, h.dominated hr.dominated, fun a hl => ?_,
    fun {b ys i} hcon hys hi hphi => ?_⟩
  · rcases h.leads_iff.1 hl with ⟨-, he⟩ | ⟨-, he⟩ | ⟨hl, -⟩
    · exact hentry he.symm
    · exact h.entry_ne he
    · exact hr.source a hl
  · rcases h.insts_cases hys with ⟨rfl, rfl⟩ | ⟨hb, hys⟩
    · rcases List.mem_append.1 hi with hj | hj
      · obtain ⟨-, -, -, r, -, -, -, -, -, hres, -⟩ := h.join hj
        exact ⟨r, hres⟩
      · rw [List.mem_singleton.1 hj, DataFlow.isPhi_of_inst h.jump] at hphi
        cases hphi
    · obtain ⟨inst, hinst⟩ := h.formed.coherent.inst_of_mem hys hi
      rw [h.result? hinst]
      exact hr.phis ((h.detour.connects_iff hb).1 hcon) hys hi ((h.isPhi_eq hinst).symm.trans hphi)

theorem origin_arg {v : ValueId} (hinst : f.flow.inst? i = some inst) (hv : v ∈ inst.args) :
    f'.flow.origin? v = f.flow.origin? v := by
  obtain ⟨o, ho⟩ := h.formed.coherent.flow.operand hinst hv
  rw [ho, h.origin? ho]

theorem resultWidth?_eq (hinst : f.flow.inst? i = some inst) :
    Frame.resultWidth? f' i = Frame.resultWidth? f i :=
  Frame.resultWidth?_congr h.formed.coherent.flow (h.result? hinst) fun _ ho => h.origin? ho

theorem result?_mem (hys : f.insts b = .ok ys) (hi : i ∈ ys) :
    f'.flow.result? i = f.flow.result? i := by
  obtain ⟨inst, hinst⟩ := h.formed.coherent.inst_of_mem hys hi
  exact h.result? hinst

theorem incoming_kept {phi : InstId} {p : BlockId} {v : ValueId} (hys : f.insts b = .ok ys)
    (hi : phi ∈ ys) (hphi : f.flow.isPhi phi = true) (hn : ¬ (p ∈ outside ∧ b = header))
    (hv : f.flow.incoming? phi p = .ok (some v)) :
    f'.flow.incoming? phi p = .ok (some v) := by
  obtain ⟨inst, hinst⟩ := h.formed.coherent.inst_of_mem hys hi
  have hop : inst.op.isPhi = true := (DataFlow.isPhi_of_inst hinst).symm.trans hphi
  have he := DataFlow.edge_of_incoming? hinst hv
  by_cases hb : b = header
  · subst hb
    have hm := (h.split_iff hys hi hinst).2 ⟨rfl, hop⟩
    obtain ⟨⟨args, preds, hform⟩, heven, -⟩ := h.header_phi hm hinst
    obtain ⟨w, hρ, -⟩ := h.gathered hm hinst
    refine DataFlow.incoming?_of_edge (h.inst? hinst) (h.split_blocks hm hinst).1 ?_
    rw [hρ, Inst.edges_addEdge (Inst.even_keepEdges _ heven) (Inst.keepEdges_phi ⟨_, args,
      preds, hform⟩), Inst.edges_keepEdges]
    exact List.mem_append_left _ (List.mem_filter.2 ⟨he, decide_eq_true fun ho => hn ⟨ho, rfl⟩⟩)
  · refine DataFlow.incoming?_of_edge (h.inst? hinst) (h.kept_blocks hys hi hinst hop hb).1 ?_
    rw [h.phi_kept hys hi hinst hop hb]
    exact he

theorem incoming_front {phi : InstId} {v : ValueId} (hphi : phi ∈ xs.takeWhile f.flow.isPhi)
    (hinst : f.flow.inst? phi = some inst)
    (hρ : ρ phi inst = (inst.keepEdges fun p => decide (p ∉ outside)).addEdge v front) :
    f'.flow.incoming? phi front = .ok (some v) := by
  obtain ⟨⟨args, preds, hform⟩, heven, -⟩ := h.header_phi hphi hinst
  refine DataFlow.incoming?_of_edge (h.inst? hinst) (h.split_blocks hphi hinst).1 ?_
  rw [hρ, Inst.edges_addEdge (Inst.even_keepEdges _ heven) (Inst.keepEdges_phi ⟨_, args,
    preds, hform⟩)]
  exact List.mem_append_right _ List.mem_cons_self

theorem incoming_join {j phi : InstId} {p : BlockId} {v : ValueId} (hj : j ∈ joins)
    (hinst : f.flow.inst? phi = some inst)
    (hj' : f'.flow.inst? j = some (inst.keepEdges fun p => decide (p ∈ outside))) (hp : p ∈ outside)
    (hv : f.flow.incoming? phi p = .ok (some v)) : f'.flow.incoming? j p = .ok (some v) := by
  refine DataFlow.incoming?_of_edge hj' (h.join_blocks hj hj').1 ?_
  rw [Inst.edges_keepEdges]
  exact List.mem_filter.2 ⟨DataFlow.edge_of_incoming? hinst hv, decide_eq_true hp⟩

theorem front_split : (joins ++ [k]).takeWhile f'.flow.isPhi = joins ∧
    (joins ++ [k]).dropWhile f'.flow.isPhi = [k] := by
  have hjoins : ∀ j ∈ joins, f'.flow.isPhi j = true := fun j hj => h.isPhi_join hj
  have hjump : ∀ j ∈ [k], ¬ f'.flow.isPhi j = true := fun j hj => by
    rw [List.mem_singleton.1 hj, DataFlow.isPhi_of_inst h.jump]
    exact Bool.false_ne_true
  exact ⟨takeWhile_split hjoins hjump, dropWhile_split hjoins hjump⟩

theorem result_new {j : InstId} {w : ValueId} {o : ValueDef} (hj : j ∈ joins)
    (ho : f.flow.origin? w = some o) :
    f'.flow.result? j ≠ some w := by
  intro hr
  obtain ⟨-, -, e, r, -, -, -, -, -, hr', hor⟩ := h.join hj
  rw [hr] at hr'
  cases hr'
  rw [h.origin? ho] at hor
  rw [hor] at ho
  obtain ⟨inst, hinst⟩ := DataFlow.hasInst_of_result (h.formed.coherent.flow.origin_result ho)
  rw [h.new j (List.mem_append_left _ hj)] at hinst
  cases hinst

section Entering

variable {s s' t : Frame} {c : BlockId} {zs : List InstId} (hholds : s.Holds f s')
  (hblock : s'.block = s.block)

include hholds hblock

theorem enter_kept (hl : f.Leads s.block c) (hn : ¬ (s.block ∈ outside ∧ c = header))
    (hent : Frame.Entered f s t c zs) (i : InstId) :
    ∃ t', s'.enter f' i c = .ok t' ∧ t.Holds f t' ∧ t'.block = t.block ∧ t'.rest = t.rest := by
  have hphis : ∀ phi ∈ zs.takeWhile f.flow.isPhi, f.flow.isPhi phi = true :=
    List.all_eq_true.1 List.all_takeWhile
  have hsub : ∀ {phi}, phi ∈ zs.takeWhile f.flow.isPhi → phi ∈ zs :=
    fun hm => (List.takeWhile_prefix _).subset hm
  obtain ⟨htake, hdrop⟩ := h.split_eq hent.insts
  obtain ⟨t', ht', hh, hb, hr⟩ := hholds.enter h.formed.coherent h.coherent hent
    ((h.others (h.detour.target_ne hl)).trans hent.insts) htake (fun phi hphi =>
    h.result?_mem hent.insts (hsub hphi)) (fun phi hphi v hv => by
      obtain ⟨inst, hinst⟩ := h.formed.coherent.inst_of_mem hent.insts (hsub hphi)
      rw [hblock]
      exact ⟨h.incoming_kept hent.insts (hsub hphi) (hphis phi hphi) hn hv,
        h.origin_arg hinst (Inst.arg_of_edge (DataFlow.edge_of_incoming? hinst hv))⟩) i
  exact ⟨t', ht', hh, hb.trans hent.block.symm, hr.trans (hdrop.trans hent.rest.symm)⟩

/-- From a block outside control comes to the new block, whose phis then hold what those of the
header take. -/
theorem enter_front (ho : s.block ∈ outside) (hent : Frame.Entered f s t header xs) (i : InstId) :
    ∃ m, s'.enter f' i front = .ok m ∧ s.Holds f m ∧ m.block = front ∧ m.rest = [k] ∧
      ∀ phi ∈ xs.takeWhile f.flow.isPhi, ∀ v, f.flow.incoming? phi s.block = .ok (some v) →
        ∃ v', f'.flow.incoming? phi front = .ok (some v') ∧ m.read f' v' = s.read f v := by
  obtain ⟨htake, hdrop⟩ := h.front_split
  have hread : ∀ {phi inst v}, f.flow.inst? phi = some inst →
      f.flow.incoming? phi s.block = .ok (some v) →
      s'.read f' v = s.read f v := fun {phi inst v} hinst hv => by
    have harg := Inst.arg_of_edge (DataFlow.edge_of_incoming? hinst hv)
    exact hholds.operand h.formed.coherent hinst harg (h.origin_arg hinst harg)
  have hmerge : ∀ j ∈ (joins ++ [k]).takeWhile f'.flow.isPhi,
      ∃ p, s'.merged f' s'.block j = .ok p := by
    intro j hj
    rw [htake] at hj
    obtain ⟨phi, inst, e, r, hphi, hinst, -, -, hj', hr, -⟩ := h.join hj
    obtain ⟨v, w, d, hv, -, hd, -⟩ := hent.merged phi hphi
    refine ⟨(r, d), Frame.merged_eq_ok.2 ⟨v, ?_, hr, (hread hinst hv).trans hd⟩⟩
    rw [hblock]
    exact h.incoming_join hj hinst hj' ho hv
  obtain ⟨ps, hps⟩ := mapM_exists hmerge
  have hok : s'.enter f' i front = .ok _ := Frame.enter_eq_ok.2 ⟨_, ps, h.here, hps, rfl⟩
  obtain ⟨ys, hent'⟩ := Frame.enter_spec h.coherent hok
  have hys := hent'.insts
  rw [h.here] at hys
  cases hys
  have hm : s.Holds f _ :=
    ⟨fun {w o} how => (hent'.kept w fun j hj => h.result_new (htake ▸ hj) how).trans
      (hholds.values how),
    hent'.memory.trans hholds.memory, hent'.activation.trans hholds.activation⟩
  refine ⟨_, hok, hm, hent'.block, hent'.rest.trans hdrop, fun phi hphi v hv => ?_⟩
  obtain ⟨inst, hinst⟩ :=
    h.formed.coherent.inst_of_mem h.header_insts ((List.takeWhile_prefix _).subset hphi)
  obtain ⟨w, hρ, hw⟩ := h.gathered hphi hinst
  refine ⟨w, h.incoming_front hphi hinst hρ, ?_⟩
  rcases hw with hall | ⟨j, hj, hr, hj'⟩
  · -- All blocks outside bring the same value.
    have he := DataFlow.edge_of_incoming? hinst hv
    obtain rfl : v = w := hall _ he ho
    exact hm.operand h.formed.coherent hinst (Inst.arg_of_edge he)
      (h.origin_arg hinst (Inst.arg_of_edge he))
  · obtain ⟨v', w', d, hv', hr', hd, hset⟩ := hent'.merged j (htake.symm ▸ hj)
    rw [hr] at hr'
    cases hr'
    rw [hblock, h.incoming_join hj hinst hj' ho hv] at hv'
    cases hv'
    obtain ⟨-, -, e, r, -, -, -, -, -, hr'', hor⟩ := h.join hj
    rw [hr] at hr''
    cases hr''
    rw [hread hinst hv] at hd
    rw [hd]
    exact (Frame.read_result hor).2 hset

end Entering

theorem goes {s s' : Frame} {c : BlockId} (hys : f.insts b = .ok ys) (hi : i ∈ ys)
    (hinst : f.flow.inst? i = some inst) (hholds : s.Holds f s') (hg : Frame.Goes f s inst c) :
    Frame.Goes f' s' (ρ i inst) (if b ∈ outside then reroute header front c else c) := by
  have hterm : inst.op.isTerminator = true :=
    (DataFlow.isTerminator_of_inst hinst).symm.trans (h.formed.goes_terminator hinst hg)
  have hg' := hholds.goes h.formed.coherent hinst (fun v hv => h.origin_arg hinst hv) hg
  rw [h.unsplit hys hi hinst fun hn =>
    absurd hn.2 (Bool.eq_false_iff.1 (Opcode.not_phi_of_terminator hterm))]
  by_cases ho : b ∈ outside
  · rw [if_pos ⟨ho, hterm⟩, if_pos ho]
    exact hg'.mapBlocks _
  · rw [if_neg fun hn => ho hn.1, if_neg ho]
    exact hg'

theorem follows {E : BlockId → BlockId → Prop} (hf : f.Orderly E entry) :
    f.Follows f' E entry fun b rest b' rest' => b' = b ∧ rest' = rest := by
  refine ⟨?_, ?_, ?_⟩
  · rintro b pre i rest b' ys inst hcon hxs hne ⟨rfl, rfl⟩ hinst hop
    have hmem : i ∈ pre ++ i :: rest := List.mem_append_right _ List.mem_cons_self
    have hterm : ¬ inst.op.isTerminator = true := fun hterm =>
      hne ((hf.terminator_iff hxs).1 ((DataFlow.isTerminator_of_inst hinst).trans hterm))
    have hsame : ρ i inst = inst := by
      rw [h.unsplit hxs hmem hinst fun hn => absurd hn.2 (Bool.eq_false_iff.1 hop),
        if_neg fun hn => hterm hn.2]
    have hhere := h.inst? hinst
    rw [hsame] at hhere
    exact ⟨rest, rfl, ⟨rfl, rfl⟩, hhere, h.result? hinst, h.resultWidth?_eq hinst,
      fun v hv => h.origin_arg hinst hv⟩
  · rintro b pre i b' ys x hcon hxs ⟨rfl, rfl⟩ hinst
    have hmem : i ∈ pre ++ [i] := List.mem_append_right _ List.mem_cons_self
    refine ⟨i, [], rfl, ?_, h.origin_arg hinst List.mem_cons_self⟩
    rw [h.inst? hinst, h.unsplit hxs hmem hinst fun hn => by cases hn.2]
    split <;> rfl
  · rintro s s' t i inst c zs hsits hrest hholds ⟨hblock, hrest'⟩ hinst hgoes hE hent
    obtain ⟨pre, hpre⟩ := hsits.suffix
    rw [hrest] at hpre
    have hgoes' := h.goes hpre (List.mem_append_right _ List.mem_cons_self) hinst hholds hgoes
    have hidle : s.Holds f { s' with rest := [] } :=
      ⟨hholds.values, hholds.memory, hholds.activation⟩
    by_cases hway : s.block ∈ outside ∧ c = header
    · -- Two steps: to the new block and on to the header.
      obtain ⟨ho, rfl⟩ := hway
      rw [if_pos ho, reroute, if_pos rfl] at hgoes'
      have hzs := hent.insts
      rw [h.header_insts] at hzs
      cases hzs
      obtain ⟨m, hm, hholds', hmb, hmr, hin⟩ := h.enter_front hidle hblock ho hent i
      obtain ⟨htake, hdrop⟩ := h.split_eq h.header_insts
      have hstay : s.Holds f { m with rest := [] } :=
        ⟨hholds'.values, hholds'.memory, hholds'.activation⟩
      obtain ⟨t', ht', hh, hb, hr⟩ :=
        hstay.comes h.coherent hent ((h.others h.header_ne).trans h.header_insts) htake
          (fun phi hphi => h.result?_mem h.header_insts ((List.takeWhile_prefix _).subset hphi))
          (fun phi hphi v hv => by
          rw [show ({ m with rest := [] } : Frame).block = front from hmb]
          exact hin phi hphi v hv) k
      have hfirst : s'.step f' = .ok (.next m) :=
        Frame.step_next_iff.2 (.enters hrest' (h.inst? hinst) hgoes' hm)
      have hsecond : m.step f' = .ok (.next t') :=
        Frame.step_next_iff.2 (.enters hmr h.jump .jump ht')
      refine ⟨2, t', ?_, hh, hb.trans hent.block.symm, hr.trans (hdrop.trans hent.rest.symm)⟩
      simp only [Frame.run, hfirst, hsecond]
    · have hsame : (if s.block ∈ outside then reroute header front c else c) = c := by
        split
        · rename_i ho
          exact DataFlow.reroute_of_ne fun hc => hway ⟨ho, hc⟩
        · rfl
      rw [hsame] at hgoes'
      obtain ⟨t', ht', hh, hb, hr⟩ := h.enter_kept hidle hblock (hf.edges hE) hway hent i
      have hmove : s'.step f' = .ok (.next t') :=
        Frame.step_next_iff.2 (.enters hrest' (h.inst? hinst) hgoes' ht')
      exact ⟨1, t', by rw [Frame.run, hmove]; rfl, hh, hb, hr⟩

theorem returns (hd : f.Dominated entry) (hn : ∀ {i x y}, f.flow.inst? i ≠ some (.binary .copy x y))
    {args : List Datum} {d : Datum} (hr : f.Returns args d) : f'.Returns args d := by
  obtain ⟨E, hs⟩ := hr.serves ⟨h.formed, hn⟩ hd
  obtain ⟨ys, hys⟩ := Layout.mem_blocks_iff.1 (Func.entry_mem h.formed.starts)
  exact (h.follows hs.1).returns hs h.params (h.first h.formed.starts) hys
    ((h.others h.entry_ne).trans hys) ⟨rfl, rfl⟩

end Fronted

end Func

end MiddleEnd
