import MiddleEnd.Proofs.BranchFolding
import MiddleEnd.Proofs.Traversal

/-!
# Unreachable blocks

Blocks that control does not come to from the entry go. First their edges are cut, so that none of
them is named any more, then they are removed one by one. What is left is the function without the
blocks and the edges from them.
-/

namespace MiddleEnd

theorem Inst.keepEdges_eq_of_not_mem {keep : BlockId → Bool} {i : Inst} {p : BlockId} (h : i.Even)
    (hp : p ∉ i.blocks) :
    i.keepEdges (fun b => keep b && decide (b ≠ p)) = i.keepEdges keep := by
  rw [← Inst.keepEdges_keepEdges, Inst.keepEdges_eq_self (Inst.even_keepEdges keep h)]
  intro b hb
  rw [decide_eq_true_eq]
  rintro rfl
  cases i with
  | phi op args preds => exact hp ((Inst.mem_blocks_keepEdges h ⟨op, args, preds, rfl⟩).1 hb).1
  | _ => exact hp hb

theorem takeWhile_split {α : Type} {p : α → Bool} {xs ys : List α} (hx : ∀ x ∈ xs, p x = true)
    (hy : ∀ y ∈ ys, ¬ p y = true) : (xs ++ ys).takeWhile p = xs := by
  rw [List.takeWhile_append_of_pos hx]
  cases ys with
  | nil => exact List.append_nil _
  | cons y ys => rw [List.takeWhile_cons_of_neg (hy y List.mem_cons_self), List.append_nil]

theorem dropWhile_split {α : Type} {p : α → Bool} {xs ys : List α} (hx : ∀ x ∈ xs, p x = true)
    (hy : ∀ y ∈ ys, ¬ p y = true) : (xs ++ ys).dropWhile p = ys := by
  rw [List.dropWhile_append_of_pos hx]
  cases ys with
  | nil => rfl
  | cons y ys => rw [List.dropWhile_cons_of_neg (hy y List.mem_cons_self)]

namespace Func

/-- The blocks of `opened` have lost their terminators, and phis have forgotten the blocks of
`gone`. -/
structure Cut (f f' : Func) (opened gone : List BlockId) : Prop where
  coherent : f'.Coherent
  alike : Alike f f'
  insts : ∀ {p xs}, f.insts p = .ok xs → f'.insts p = .ok (if p ∈ opened then xs.dropLast else xs)
  inst? : ∀ {p xs i}, f.insts p = .ok xs → i ∈ xs → f'.flow.inst? i =
    if p ∈ opened ∧ f.flow.isTerminator i = true then none else (f.flow.inst? i).map
      (·.keepEdges (· ∉ gone))
  result? : ∀ i, f'.flow.result? i = f.flow.result? i
  origin? : ∀ {v o}, f.flow.origin? v = some o → f'.flow.origin? v = some o
  added : ∀ {v o}, f'.flow.origin? v = some o → f.flow.origin? v = some o ∨ o.isConst = true ∨
    o.isUndef = true
  params : f'.flow.params = f.flow.params
  imports : f'.flow.imports = f.flow.imports

variable {f f' : Func} {entry p : BlockId} {opened gone : List BlockId}

theorem Cut.refl (hf : f.Formed entry) : f.Cut f [] [] where
  coherent := hf.coherent
  alike := .refl f
  insts hxs := by rw [if_neg List.not_mem_nil, hxs]
  inst? {p xs i} hxs hi := by
    obtain ⟨inst, hinst⟩ := hf.coherent.inst_of_mem hxs hi
    rw [if_neg fun h => List.not_mem_nil h.1, hinst, Option.map_some,
      Inst.keepEdges_eq_self (hf.coherent.flow.even hinst) fun _ _ => by simp]
  result? _ := rfl
  origin? h := h
  added h := .inl h
  params := rfl
  imports := rfl

theorem Cut.inst_of_plain (h : f.Cut f' opened gone) {xs : List InstId} {i : InstId} {inst : Inst}
    (hxs : f.insts p = .ok xs) (hi : i ∈ xs) (hinst : f.flow.inst? i = some inst)
    (hplain : p ∈ opened → inst.op.isTerminator = false) :
    f'.flow.inst? i = some (inst.keepEdges (· ∉ gone)) := by
  rw [h.inst? hxs hi, if_neg, hinst, Option.map_some]
  rintro ⟨hp, ht⟩
  rw [DataFlow.isTerminator_of_inst hinst, hplain hp] at ht
  cases ht

theorem Cut.phis_eq (h : f.Cut f' opened gone) (hf : f.Formed entry) {xs : List InstId}
    (hxs : f.insts p = .ok xs) :
    f'.phis p = .ok (xs.takeWhile f.flow.isPhi) := by
  obtain ⟨phis, body, last, rfl, hs⟩ := hf.shape.shaped hxs
  have hmem : ∀ {i}, i ∈ phis ++ body → i ∈ phis ++ (body ++ [last]) := fun hi => by
    rw [← List.append_assoc]
    exact List.mem_append_left _ hi
  have hplain : ∀ {i}, i ∈ phis ++ body → f'.flow.isPhi i = f.flow.isPhi i := by
    intro i hi
    obtain ⟨inst, hinst⟩ := hf.coherent.inst_of_mem hxs (hmem hi)
    have hnot : f.flow.isTerminator i = false := by
      rcases List.mem_append.1 hi with hi | hi
      · exact not_terminator_of_phi (hs.isPhi i hi)
      · exact (hs.plain i hi).2
    rw [DataFlow.isPhi_of_inst hinst,
      DataFlow.isPhi_of_inst (h.inst_of_plain hxs (hmem hi) hinst fun _ =>
      (DataFlow.isTerminator_of_inst hinst).symm.trans hnot), Inst.op_keepEdges]
  have hphi : ∀ i ∈ phis, f'.flow.isPhi i = true := fun i hi =>
    (hplain (List.mem_append_left _ hi)).trans (hs.isPhi i hi)
  have hbody : ∀ i ∈ body, ¬ f'.flow.isPhi i = true := fun i hi => by
    rw [hplain (List.mem_append_right _ hi), (hs.plain i hi).1]
    exact Bool.false_ne_true
  unfold Func.phis
  rw [hs.takeWhile_eq, h.insts hxs, ok_bind]
  congr 1
  split
  · rw [← List.append_assoc, List.dropLast_concat]
    exact takeWhile_split hphi hbody
  · rename_i hp
    refine takeWhile_split hphi fun i hi => ?_
    rcases List.mem_append.1 hi with hi | hi
    · exact hbody i hi
    · obtain rfl := List.mem_singleton.1 hi
      have hlast : i ∈ phis ++ (body ++ [i]) :=
        List.mem_append_right _ (List.mem_append_right _ List.mem_cons_self)
      obtain ⟨inst, hinst⟩ := hf.coherent.inst_of_mem hxs hlast
      rw [DataFlow.isPhi_of_inst (h.inst_of_plain hxs hlast hinst fun hp' => absurd hp' hp),
        Inst.op_keepEdges, ← DataFlow.isPhi_of_inst hinst, not_phi_of_terminator hs.isTerminator]
      exact Bool.false_ne_true

end Func

/-! ## Cutting edges -/

namespace Builder

theorem Forgot.phis_eq {b c : Builder} {p : BlockId} {phis : List InstId} (h : b.Forgot p phis c)
    (s : BlockId) :
    c.func.phis s = b.func.phis s := by
  have hisPhi : c.flow.isPhi = b.flow.isPhi := by
    funext i
    refine h.rewired.isPhi (fun {i inst} _ => ?_) i
    split
    · exact Inst.op_keepEdges _ _
    · rfl
  unfold Func.phis
  rw [show c.func.flow.isPhi = b.func.flow.isPhi from hisPhi, h.same]
  rfl

/-- The phis of some blocks forget a block. -/
theorem forgetAt_ok {b : Builder} (h : b.func.Coherent) (p : BlockId) {succs : List BlockId}
    (hphis : ∀ s ∈ succs, ∃ phis, b.func.phis s = .ok phis ∧
      ∀ i ∈ phis, ∃ op args preds, b.flow.inst? i = some (.phi op args preds)) :
    ∃ c phis, (succs.foldlM (fun (b : Builder) succ => do
        (← b.func.phis succ).foldlM
          (fun (b : Builder) phi => do
            let (_, flow) ← b.flow.removeIncoming phi p
            return b.withFlow flow)
          b) b : Checked Builder) = .ok c ∧ b.Forgot p phis c ∧
      ∀ i, i ∈ phis ↔ ∃ s ∈ succs, ∃ xs, b.func.phis s = .ok xs ∧ i ∈ xs := by
  have hfold := foldlM_yields (f := fun (b : Builder) succ => do
      (← b.func.phis succ).foldlM
        (fun (b : Builder) phi => do
          let (_, flow) ← b.flow.removeIncoming phi p
          return b.withFlow flow)
        b) (l := succs) (b := b)
    (fun done c => ∃ phis, b.Forgot p phis c ∧ ∀ i, i ∈ phis ↔ ∃ s ∈ done, ∃ xs, b.func.phis s =
    .ok xs ∧ i ∈ xs) ⟨[], .nil h p, fun i => by simp⟩ ?_
  · obtain ⟨c, hc, phis, hforgot, hmem⟩ := hfold
    exact ⟨c, phis, hc, hforgot, hmem⟩
  · rintro pre s post c he ⟨phis, hc, hmem⟩
    obtain ⟨xs, hxs, hforms⟩ := hphis s (he ▸ List.mem_append_right _ List.mem_cons_self)
    obtain ⟨d, hd, hforgot⟩ := foldlM_yields (f := fun (b : Builder) phi => do
        let (_, flow) ← b.flow.removeIncoming phi p
        return b.withFlow flow) (l := xs) (fun done d => b.Forgot p (phis ++ done) d)
      (by rw [List.append_nil]; exact hc) fun done i rest d hl hd => by
        obtain ⟨n, g, hg, hforgot⟩ :=
          hd.step (hforms i (hl ▸ List.mem_append_right _ List.mem_cons_self))
        exact ⟨d.withFlow g, by rw [hg]; rfl, by rw [← List.append_assoc]; exact hforgot⟩
    refine ⟨d, by rw [hc.phis_eq, hxs]; exact hd, phis ++ xs, hforgot, fun i => ?_⟩
    rw [List.mem_append, hmem]
    constructor
    · rintro (⟨s', hs', h'⟩ | hi)
      · exact ⟨s', List.mem_append_left _ hs', h'⟩
      · exact ⟨s, List.mem_append_right _ List.mem_cons_self, xs, hxs, hi⟩
    · rintro ⟨s', hs', ys, hys, hi⟩
      rcases List.mem_append.1 hs' with hs' | hs'
      · exact .inl ⟨s', hs', ys, hys, hi⟩
      · rw [List.mem_singleton.1 hs', hxs] at hys
        cases hys
        exact .inr hi

end Builder

namespace Func

variable {f : Func} {entry p : BlockId} {opened gone : List BlockId} {c d : Builder}
  {front xs : List InstId} {term : InstId} {inst : Inst}

/-- A block loses its terminator. -/
theorem Cut.open_ok (h : f.Cut c.func opened gone) (ht : f.Neat entry)
    (hxs : f.insts p = .ok (front ++ [term])) (hp : p ∉ opened)
    (hterm : f.flow.isTerminator term = true) :
    ∃ d, c.removeInst term = .ok d ∧ f.Cut d.func (opened ++ [p]) gone := by
  have hlayout := ht.coherent.layout
  have hmem : term ∈ front ++ [term] := List.mem_append_right _ List.mem_cons_self
  obtain ⟨inst, hinst⟩ := ht.coherent.inst_of_mem hxs hmem
  have hinst' := h.inst_of_plain hxs hmem hinst fun hp' => absurd hp' hp
  have hr : c.flow.result? term = none := (h.result? term).trans (ht.last hterm)
  obtain ⟨d, hd, hcoh, hs, halike, hl⟩ := Builder.removeInst_ok h.coherent hinst' fun v hv => by
    rw [hr] at hv
    cases hv
  have hfront : (front ++ [term]).filter (· ≠ term) = front := by
    rw [List.filter_append, List.filter_cons_of_neg (by simp), List.filter_nil, List.append_nil,
      List.filter_eq_self.2 fun i hi => ?_]
    rw [decide_eq_true_eq]
    rintro rfl
    exact (List.nodup_append.1 (hlayout.insts_nodup hxs)).2.2 i hi i List.mem_cons_self rfl
  refine ⟨d, hd, hcoh, h.alike.trans halike, ?_, ?_, ?_, ?_, ?_, hs.params.trans h.params,
    hs.imports.trans h.imports⟩
  · intro q ys hys
    rw [hl, h.insts hys, map_ok]
    by_cases hq : q = p
    · subst hq
      rw [hxs] at hys
      cases hys
      rw [if_neg hp, if_pos (List.mem_append_right _ List.mem_cons_self), hfront,
        List.dropLast_concat]
    · have hsame : ∀ zs : List InstId, (∀ i ∈ zs, i ∈ ys) →
          zs.filter (· ≠ term) = zs := fun zs hzs =>
        List.filter_eq_self.2 fun i hi => by
          rw [decide_eq_true_eq]
          rintro rfl
          exact hq (hlayout.one_block hys hxs (hzs i hi) hmem)
      simp only [List.mem_append, List.mem_singleton, hq, or_false]
      split
      · rw [hsame _ fun i hi => (List.dropLast_prefix ys).subset hi]
      · rw [hsame _ fun i hi => hi]
  · intro q ys i hys hi
    show d.flow.inst? i = _
    rw [hs.inst?, Builder.flow, h.inst? hys hi]
    by_cases hit : i = term
    · subst hit
      rw [if_pos rfl, hlayout.one_block hys hxs hi hmem,
        if_pos ⟨List.mem_append_right _ List.mem_cons_self, hterm⟩]
    · rw [if_neg hit]
      refine if_congr ?_ rfl rfl
      rw [List.mem_append, List.mem_singleton]
      refine and_congr_left fun hi' => ⟨.inl, fun hq => hq.resolve_right ?_⟩
      rintro rfl
      rw [hxs] at hys
      cases hys
      obtain ⟨front', last, he, -, hplain⟩ := ht.shape.ended hxs
      obtain ⟨rfl, hlast⟩ := List.append_inj' he rfl
      rcases List.mem_append.1 hi with hi | hi
      · rw [hplain i hi] at hi'
        cases hi'
      · exact hit (List.mem_singleton.1 hi)
  · intro i
    show d.flow.result? i = _
    rw [hs.result?]
    split
    · rename_i hit
      rw [hit, ht.last hterm]
    · exact h.result? i
  · intro v o hv
    show d.flow.origin? v = _
    rw [hs.origin?, hr, if_neg (by simp)]
    exact h.origin? hv
  · intro v o hv
    rw [show d.func.flow.origin? v = _ from hs.origin? v, hr, if_neg (by simp)] at hv
    exact h.added hv

/-- The phis that a block leads to forget it. -/
theorem Cut.forget (h : f.Cut c.func opened gone) (hf : f.Formed entry) {phis : List InstId}
    (hphis : ∀ i, i ∈ phis ↔ ∃ s xs, f.Leads p s ∧ f.insts s = .ok xs ∧
      i ∈ xs.takeWhile f.flow.isPhi)
    (hd : c.Forgot p phis d) : f.Cut d.func opened (gone ++ [p]) := by
  have hfunc : d.func = { c.func with flow := d.flow } := congrArg Builder.func hd.same
  have hR := hd.rewired
  refine ⟨?_, ?_, ?_, ?_, ?_, ?_, ?_, hR.params.trans h.params, hR.imports.trans h.imports⟩
  · rw [hfunc]
    exact h.coherent.rewire hd.exact hR
  · rw [hfunc]
    exact ⟨h.alike.name, h.alike.sig, h.alike.blockTable, h.alike.blocks⟩
  · intro q ys hys
    rw [hfunc]
    exact h.insts hys
  · intro q ys i hys hi
    obtain ⟨jnst, hjnst⟩ := hf.coherent.inst_of_mem hys hi
    have heven := hf.coherent.flow.even hjnst
    have hform := hf.forms hjnst
    show d.flow.inst? i = _
    rw [hR.inst?, Builder.flow, h.inst? hys hi, hjnst]
    by_cases hgone : q ∈ opened ∧ f.flow.isTerminator i = true
    · rw [if_pos hgone, if_pos hgone]
      rfl
    · rw [if_neg hgone, if_neg hgone, Option.map_some, Option.map_some, Option.map_some,
        Option.some.injEq]
      simp only [List.mem_append, List.mem_singleton, not_or, Bool.decide_and]
      cases hop : jnst.op.isPhi with
      | false =>
        rw [keepEdges_of_not_phi hform hop, keepEdges_of_not_phi hform hop,
        keepEdges_of_not_phi hform hop, ite_self]
      | true =>
        have hisPhi : f.flow.isPhi i = true := (DataFlow.isPhi_of_inst hjnst).trans hop
        split
        · rw [Inst.keepEdges_keepEdges]
        · rename_i hnot
          refine (Inst.keepEdges_eq_of_not_mem heven fun hp => hnot ?_).symm
          exact (hphis i).2 ⟨q, ys, ((hf.shape.phi_edges hys hi hisPhi hjnst).2 p).1 hp, hys,
            hf.shape.mem_phis hys hi hisPhi⟩
  · intro i
    exact (hR.result? i).trans (h.result? i)
  · intro v o hv
    exact hR.origin? (h.origin? hv)
  · intro v o hv
    rcases hR.added hv with hv | hv
    · exact h.added hv
    · exact .inr hv

theorem Cut.step (h : f.Cut c.func gone gone) (ht : f.Neat entry) (hp : p ∈ f.blocks)
    (hn : p ∉ gone) :
    ∃ d, FlowSimplification.cutEdges c p = .ok d ∧ f.Cut d.func (gone ++ [p]) (gone ++ [p]) := by
  have hf := ht.toFormed
  obtain ⟨xs, hxs⟩ := Layout.mem_blocks_iff.1 hp
  obtain ⟨front, term, rfl, hterm, -⟩ := hf.shape.ended hxs
  obtain ⟨inst, hinst⟩ := DataFlow.inst_of_isTerminator hterm
  have hterm' := (DataFlow.isTerminator_of_inst hinst).symm.trans hterm
  have hxs' : c.func.insts p = .ok (front ++ [term]) := by rw [h.insts hxs, if_neg hn]
  have hinst' : c.func.flow.inst? term = some inst := by
    rw [h.inst_of_plain hxs (List.mem_append_right _ List.mem_cons_self) hinst fun hp' =>
      absurd hp' hn, keepEdges_of_not_phi (hf.forms hinst) (Opcode.not_phi_of_terminator hterm')]
  obtain ⟨d, hd, hcut⟩ := h.open_ok ht hxs hn hterm
  have hphis : ∀ s ∈ inst.blocks.eraseDups, ∃ xs, f.insts s = .ok xs ∧
      d.func.phis s = .ok (xs.takeWhile f.flow.isPhi) := by
    intro s hs
    obtain ⟨ys, hys⟩ := Layout.mem_blocks_iff.1 (hf.shape.targets hinst s (List.mem_eraseDups.1 hs))
    exact ⟨ys, hys, hcut.phis_eq hf hys⟩
  obtain ⟨e, phis, he, hforgot, hmem⟩ := Builder.forgetAt_ok hcut.coherent p fun s hs => by
    obtain ⟨ys, hys, hphis⟩ := hphis s hs
    refine ⟨_, hphis, fun i hi => ?_⟩
    have hiy := (List.takeWhile_prefix _).subset hi
    have hphi := List.all_eq_true.1 List.all_takeWhile i hi
    obtain ⟨jnst, hjnst⟩ := hf.coherent.inst_of_mem hys hiy
    have hop := (DataFlow.isPhi_of_inst hjnst).symm.trans hphi
    obtain ⟨args, preds, rfl⟩ := Verify.phi_of_form (hf.forms hjnst) hop
    exact ⟨_, _, _, hcut.inst_of_plain hys hiy hjnst fun _ => rfl⟩
  refine ⟨e, ?_, hcut.forget hf (fun i => ?_) hforgot⟩
  · unfold FlowSimplification.cutEdges
    rw [successors_last hxs' hinst' hterm', ok_bind, terminator?_last hxs'
      ((DataFlow.isTerminator_of_inst hinst').trans hterm'), ok_bind]
    simp only [hd, ok_bind]
    exact he
  · rw [hmem]
    constructor
    · rintro ⟨s, hs, ys, hys, hi⟩
      obtain ⟨zs, hzs, hphis⟩ := hphis s hs
      rw [hphis] at hys
      cases hys
      exact ⟨s, zs, (leads_last_iff hxs hinst hterm').2 (List.mem_eraseDups.1 hs), hzs, hi⟩
    · rintro ⟨s, ys, hl, hys, hi⟩
      have hs := List.mem_eraseDups.2 ((leads_last_iff hxs hinst hterm').1 hl)
      obtain ⟨zs, hzs, hphis⟩ := hphis s hs
      rw [hys] at hzs
      cases hzs
      exact ⟨s, hs, _, hphis, hi⟩

theorem Cut.inst_of (h : f.Cut c.func gone gone) (hf : f.Formed entry) {i : InstId} {inst' : Inst}
    (hi : c.flow.inst? i = some inst') :
    ∃ b xs inst, f.insts b = .ok xs ∧ i ∈ xs ∧ f.flow.inst? i = some inst ∧
      (b ∈ gone → inst.op.isTerminator = false) ∧ inst' = inst.keepEdges (· ∉ gone) := by
  obtain ⟨b, ys, hys, hiy⟩ := h.coherent.home hi
  have hb : b ∈ c.func.blocks := Layout.mem_blocks_iff.2 ⟨ys, hys⟩
  rw [show c.func.blocks = f.blocks from h.alike.blocks] at hb
  obtain ⟨xs, hxs⟩ := Layout.mem_blocks_iff.1 hb
  have hix : i ∈ xs := by
    rw [h.insts hxs] at hys
    cases hys
    split at hiy
    · exact (List.dropLast_prefix xs).subset hiy
    · exact hiy
  obtain ⟨inst, hinst⟩ := hf.coherent.inst_of_mem hxs hix
  rw [Builder.flow, h.inst? hxs hix, hinst] at hi
  split at hi
  · cases hi
  · rename_i hnot
    refine ⟨b, xs, inst, hxs, hix, hinst, fun hb => ?_, (Option.some.inj hi).symm⟩
    rw [← DataFlow.isTerminator_of_inst hinst, Bool.eq_false_iff]
    exact fun hterm => hnot ⟨hb, hterm⟩

theorem Cut.unnamed (h : f.Cut c.func gone gone) (hf : f.Formed entry)
    (hgone : ∀ b, b ∈ gone ↔ b ∈ f.blocks ∧ ¬ Connects f.Leads entry b) {i : InstId} {inst' : Inst}
    (hi : c.flow.inst? i = some inst') : ∀ b ∈ inst'.blocks, b ∉ gone := by
  intro t ht
  obtain ⟨b, xs, inst, hxs, hix, hinst, hplain, rfl⟩ := h.inst_of hf hi
  have hform := hf.forms hinst
  cases hop : inst.op.isPhi with
  | true =>
    obtain ⟨args, preds, rfl⟩ := Verify.phi_of_form hform hop
    have := ((Inst.mem_blocks_keepEdges (hf.coherent.flow.even hinst) ⟨_, _, _, rfl⟩).1 ht).2
    simpa using this
  | false =>
    rw [keepEdges_of_not_phi hform hop] at ht
    cases hterm : inst.op.isTerminator with
    | false =>
      rw [blocks_eq_nil hform hop hterm] at ht
      cases ht
    | true =>
      have hb : b ∉ gone := fun hb => Bool.false_ne_true ((hplain hb).symm.trans hterm)
      have hcon : Connects f.Leads entry b := Classical.byContradiction fun hn =>
        hb ((hgone b).2 ⟨Layout.mem_blocks_iff.2 ⟨xs, hxs⟩, hn⟩)
      exact fun hg => ((hgone t).1 hg).2 (hcon.step (hf.shape.leads hxs hix hinst hterm ht))

/-! ## Removing blocks -/

theorem Within.append {f f₁ : Func} {D : List BlockId} {τ : ValueId → ValueId}
    (h : f.Stripped f₁ D τ) {p : BlockId} (hp : p ∉ D) {i : InstId} :
    f.Within (D ++ [p]) i ↔ f.Within D i ∨ f₁.Within [p] i := by
  constructor
  · rintro ⟨q, xs, hq, hxs, hi⟩
    rcases List.mem_append.1 hq with hq | hq
    · exact .inl ⟨q, xs, hq, hxs, hi⟩
    · refine .inr ⟨q, xs, hq, ?_, hi⟩
      rw [h.insts (List.mem_singleton.1 hq ▸ hp)]
      exact hxs
  · rintro (⟨q, xs, hq, hxs, hi⟩ | ⟨q, xs, hq, hxs, hi⟩)
    · exact ⟨q, xs, List.mem_append_left _ hq, hxs, hi⟩
    · rw [h.insts (List.mem_singleton.1 hq ▸ hp)] at hxs
      exact ⟨q, xs, List.mem_append_right _ hq, hxs, hi⟩

theorem Stripped.refl {f : Func} (h : f.Coherent) : f.Stripped f [] id := by
  have hnone : ∀ {i}, ¬ f.Within [] i := fun ⟨_, _, hc, _⟩ => List.not_mem_nil hc
  refine ⟨h, rfl, ?_, fun _ => rfl, fun {i inst'} => ?_, fun _ => rfl, fun hv _ => ⟨rfl, hv⟩,
    fun hi => absurd hi hnone, .inl, rfl, rfl⟩
  · exact (List.filter_eq_self.2 fun _ _ => by simp).symm
  · constructor
    · exact fun hi => ⟨hnone, inst', hi, (Inst.mapArgs_eq_self fun _ _ => rfl).symm⟩
    · rintro ⟨-, inst, hi, rfl⟩
      rw [Inst.mapArgs_eq_self (g := id) fun _ _ => rfl]
      exact hi

/-- One more block is removed. -/
theorem Stripped.append {f f₁ f₂ : Func} {D : List BlockId} {τ τ' : ValueId → ValueId}
    (h : f.Stripped f₁ D τ) (h' : f₁.Stripped f₂ [p] τ') (hf : f.Coherent) (hp : p ∉ D) :
    f.Stripped f₂ (D ++ [p]) (τ' ∘ τ) := by
  have hwithin : ∀ {i}, f.Within (D ++ [p]) i ↔ f.Within D i ∨ f₁.Within [p] i := Within.append h hp
  have hapart : ∀ {i}, f₁.Within [p] i → ¬ f.Within D i := by
    rintro i ⟨q, xs, hq, hxs, hi⟩ ⟨q', xs', hq', hxs', hi'⟩
    rw [List.mem_singleton.1 hq, h.insts hp] at hxs
    exact hp (hf.layout.one_block hxs' hxs hi' hi ▸ hq')
  refine ⟨h'.coherent, h'.sig.trans h.sig, ?_, fun {c} hc => ?_, fun {i inst'} => ?_,
    fun {i} hi => ?_,
    fun {v o} hv hn => ?_, fun {i v} hi hr => ?_, fun {v o} hv => ?_, h'.params.trans h.params,
    h'.imports.trans h.imports⟩
  · rw [h'.blocks, h.blocks, List.filter_filter]
    exact List.filter_congr fun b _ => by simp [and_comm]
  · rw [h'.insts fun hc' => hc (List.mem_append_right _ hc'),
      h.insts fun hc' => hc (List.mem_append_left _ hc')]
  · rw [h'.inst_iff, hwithin, not_or]
    constructor
    · rintro ⟨hn', inst₁, hi₁, rfl⟩
      obtain ⟨hn, inst, hi, rfl⟩ := h.inst_iff.1 hi₁
      exact ⟨⟨hn, hn'⟩, inst, hi, Inst.mapArgs_mapArgs _ _ _⟩
    · rintro ⟨⟨hn, hn'⟩, inst, hi, rfl⟩
      exact ⟨hn', _, h.inst_iff.2 ⟨hn, inst, hi, rfl⟩, (Inst.mapArgs_mapArgs _ _ _).symm⟩
  · rw [hwithin, not_or] at hi
    rw [h'.result? hi.2, h.result? hi.1]
  · obtain ⟨hτ, hv₁⟩ := h.kept hv fun i hi => hn i (hwithin.2 (.inl hi))
    obtain ⟨hτ', hv₂⟩ := h'.kept hv₁ fun i hi => by
      rw [h.result? (hapart hi)]
      exact hn i (hwithin.2 (.inr hi))
    exact ⟨by rw [Function.comp_apply, hτ, hτ'], hv₂⟩
  · rw [Function.comp_apply]
    rcases hwithin.1 hi with hi | hi
    · obtain ⟨ty, ho, hundef⟩ := h.lost hi hr
      obtain ⟨hτ', hundef'⟩ := h'.kept hundef fun j _ hj => by
        obtain ⟨ty', ho', -⟩ := h.coherent.flow.result_origin hj
        rw [hundef] at ho'
        cases ho'
      exact ⟨ty, ho, by rw [hτ']; exact hundef'⟩
    · obtain ⟨ty, ho, -⟩ := hf.flow.result_origin hr
      obtain ⟨hτ, hv₁⟩ := h.kept ho fun j hj hjr => by
        obtain rfl := hf.flow.definer_eq hjr ho
        exact hapart hi hj
      obtain ⟨ty', ho', hundef⟩ := h'.lost hi ((h.result? (hapart hi)).trans hr)
      rw [hv₁] at ho'
      cases ho'
      exact ⟨ty, ho, by rw [hτ]; exact hundef⟩
  · rcases h'.added hv with hv | hv
    · exact h.added hv
    · exact .inr hv

/-- A function loses the blocks that control does not come to, and the edges from them. -/
theorem Cut.pruned {f₁ f' : Func} (h : f.Cut f₁ gone gone) (ht : f.Neat entry)
    (hgone : ∀ b, b ∈ gone ↔ b ∈ f.blocks ∧ ¬ Connects f.Leads entry b) {τ : ValueId → ValueId}
    (hs : f₁.Stripped f' gone τ) :
    f.Pruned f' entry (· ∉ gone) id τ (fun _ p => p ∉ gone) f.OneWay := by
  have hf := ht.toFormed
  have hentry : entry ∉ gone := fun he => ((hgone entry).1 he).2 (.refl _ _)
  have hinsts : ∀ {b xs}, b ∉ gone → f.insts b = .ok xs → f'.insts b = .ok xs := fun hb hxs => by
    rw [hs.insts hb, h.insts hxs, if_neg hb]
  have hwithin : ∀ {i}, f₁.Within gone i → ∃ b xs, b ∈ gone ∧ f.insts b = .ok xs ∧ i ∈ xs := by
    rintro i ⟨b, ys, hb, hys, hi⟩
    obtain ⟨xs, hxs⟩ := Layout.mem_blocks_iff.1 ((hgone b).1 hb).1
    rw [h.insts hxs, if_pos hb] at hys
    cases hys
    exact ⟨b, xs, hb, hxs, (List.dropLast_prefix xs).subset hi⟩
  have hapart : ∀ {b xs i}, b ∉ gone → f.insts b = .ok xs → i ∈ xs → ¬ f₁.Within gone i := by
    intro b xs i hb hxs hi hw
    obtain ⟨b', xs', hb', hxs', hi'⟩ := hwithin hw
    exact hb (hf.coherent.layout.one_block hxs' hxs hi' hi ▸ hb')
  have hrecast : ∀ {b xs i inst}, b ∉ gone → f.insts b = .ok xs → i ∈ xs →
      f.flow.inst? i = some inst →
      f'.flow.inst? i = some ((inst.keepEdges (· ∉ gone)).mapArgs τ) := fun hb hxs hi hinst =>
    hs.inst_iff.2 ⟨hapart hb hxs hi, _, h.inst_of_plain hxs hi hinst fun hb' => absurd hb' hb, rfl⟩
  have hclosed : ∀ {a b}, a ∉ gone → f.Leads a b → b ∉ gone := fun ha hl hb => ((hgone _).1 hb).2 <|
    (Classical.byContradiction fun hn => ha ((hgone _).2 ⟨hl.mem_blocks, hn⟩)).step hl
  refine ⟨hs.coherent, hs.sig.trans h.alike.sig, hs.params.trans h.params,
    hs.imports.trans h.imports, ?_, ?_,
    fun _ => rfl, fun hb hxs hi hinst => ⟨_, hrecast hb hxs hi hinst, .same⟩, fun hb hxs hi => ?_,
    fun {v o} hv => ?_,
    fun {v o} hv => ?_, fun {b} hb hn => ?_, hclosed, fun {p b} hb hl => ?_⟩
  · have hhead := entry_eq_ok.1 hf.starts
    obtain ⟨rest, hrest⟩ := List.head?_eq_some_iff.1 hhead
    rw [entry_eq_ok, hs.blocks, show f₁.blocks = f.blocks from h.alike.blocks, hrest,
      List.filter_cons_of_pos (by simpa using hentry)]
    rfl
  · intro b xs'
    constructor
    · intro hxs'
      have hb : b ∈ f'.blocks := Layout.mem_blocks_iff.2 ⟨xs', hxs'⟩
      rw [hs.blocks, show f₁.blocks = f.blocks from h.alike.blocks, List.mem_filter,
        decide_eq_true_eq] at hb
      obtain ⟨xs, hxs⟩ := Layout.mem_blocks_iff.1 hb.1
      rw [hinsts hb.2 hxs] at hxs'
      exact ⟨hb.2, xs, hxs, by rw [List.map_id]; exact (Except.ok.inj hxs').symm⟩
    · rintro ⟨hb, xs, hxs, rfl⟩
      rw [List.map_id]
      exact hinsts hb hxs
  · exact (hs.result? (hapart hb hxs hi)).trans (h.result? _)
  · by_cases hlost : ∃ i, f₁.Within gone i ∧ f₁.flow.result? i = some v
    · obtain ⟨i, hi, hr⟩ := hlost
      obtain ⟨ty, ho, hundef⟩ := hs.lost hi hr
      obtain ⟨home, xs, hhome, hxs, hix⟩ := hwithin hi
      rw [h.origin? hv] at ho
      exact .inr ⟨ty, i, home, xs, Option.some.inj ho, hxs, hix, not_not.2 hhome, hundef⟩
    · exact .inl (hs.kept (h.origin? hv) fun i hi hr => hlost ⟨i, hi, hr⟩)
  · rcases hs.added hv with hv | hv
    · exact h.added hv
    · exact .inr hv
  · exact ((hgone b).1 (not_not.1 hn)).2
  · rw [decide_eq_true_eq]
    constructor
    · intro hp
      obtain ⟨xs, t, inst, hxs, hlast, ht', hterm, hmem⟩ := leads_iff.1 hl
      refine leads_iff.2 ⟨xs, t, _, hinsts hp hxs, hlast,
        hrecast hp hxs (List.mem_of_getLast? hlast) ht', ?_, ?_⟩
      · rw [Inst.op_mapArgs, Inst.op_keepEdges]
        exact hterm
      · rw [keepEdges_of_not_phi (hf.forms ht') (Opcode.not_phi_of_terminator hterm),
          Inst.blocks_mapArgs]
        exact hmem
    · intro hl'
      have hmem := hl'.mem_blocks
      rw [hs.blocks] at hmem
      simpa using (List.mem_filter.1 hmem).2

theorem Stripped.weight {f f' : Func} {D : List BlockId} {τ : ValueId → ValueId}
    (h : f.Stripped f' D τ) :
    f'.flow.weight ≤ f.flow.weight := by
  refine DataFlow.weight_mono fun {i op} hop => ?_
  obtain ⟨inst', hi', rfl⟩ := Option.map_eq_some_iff.1 hop
  obtain ⟨-, inst, hi, rfl⟩ := h.inst_iff.1 hi'
  rw [DataFlow.op?_eq_some hi, Inst.op_mapArgs]

theorem Cut.weight (h : f.Cut c.func gone gone) (hf : f.Formed entry) :
    c.flow.weight ≤ f.flow.weight := by
  refine DataFlow.weight_mono fun {i op} hop => ?_
  obtain ⟨inst', hi', rfl⟩ := Option.map_eq_some_iff.1 hop
  obtain ⟨-, -, inst, -, -, hi, -, rfl⟩ := h.inst_of hf hi'
  rw [DataFlow.op?_eq_some hi, Inst.op_keepEdges]

end Func

namespace FlowSimplification

theorem unreachable_ok {f : Func} {entry : BlockId} (he : f.entry = .ok entry) (hc : f.Closed) :
    ∃ dead, unreachable f = .ok dead ∧ (f.blocks.Nodup → dead.Nodup) ∧
      ∀ b, b ∈ dead ↔ b ∈ f.blocks ∧ ¬ Connects f.Leads entry b := by
  have hwithin : Search.Within f.successors f.blocks := fun b hb => by
    obtain ⟨ss, hss⟩ := Func.successors_ok hb
    exact ⟨ss, hss, fun s hs => hc b hb s ⟨ss, hss, hs⟩⟩
  obtain ⟨s, hs, hsane, hdone, hmem⟩ :=
    Search.visits_ok [entry] hwithin (Nat.le_succ f.blocks.length) fun r hr => by
      rw [List.mem_singleton.1 hr]
      exact Func.entry_mem he
  have hseen : ∀ b, b ∈ s.seen ↔ Connects f.Leads entry b := by
    intro b
    have hiff : b ∈ s.seen ↔ b ∈ s.finished := ⟨hdone b, hsane.finished_seen b⟩
    rw [hiff, hmem]
    simp only [List.mem_singleton, exists_eq_left]
    exact Iff.rfl
  have hdead : ∀ b, b ∈ f.blocks.filter (· ∉ s.seen) ↔ b ∈ f.blocks ∧
      ¬ Connects f.Leads entry b := fun b => by
    rw [List.mem_filter, decide_eq_true_eq, hseen]
  refine ⟨f.blocks.filter (· ∉ s.seen), ?_, ?_, hdead⟩
  · unfold unreachable Search.reach
    rw [he, ok_bind, show ([entry].foldlM (Search.visit f.successors (f.blocks.length + 1))
      ({ seen := [] } : Search.State BlockId)) = .ok s from hs]
    rfl
  · exact fun hn => hn.filter _

theorem connects_of_cut {f f' : Func} {entry : BlockId}
    (hl : ∀ {a b}, Connects f.Leads entry a → f.Leads a b → f'.Leads a b) {b : BlockId}
    (hb : Connects f.Leads entry b) : Connects f'.Leads entry b := by
  obtain ⟨p, hp⟩ := hb
  suffices ∀ {a b p}, Walk f.Leads a b p → Connects f.Leads entry a → Connects f'.Leads entry a →
      Connects f'.Leads entry b from this hp (.refl _ _) (.refl _ _)
  intro a b p hp
  induction hp with
  | single a => exact fun _ h => h
  | cons e _ ih => exact fun h h' => ih (h.step e) (h'.step (hl h e))

theorem cutAll_ok {b : Builder} {entry : BlockId} (ht : b.func.Neat entry) {dead : List BlockId}
    (hn : dead.Nodup) (hdead : ∀ c ∈ dead, c ∈ b.func.blocks) :
    ∃ c, dead.foldlM cutEdges b = .ok c ∧ b.func.Cut c.func dead dead := by
  refine foldlM_yields (fun done (c : Builder) => b.func.Cut c.func done done)
    (.refl ht.toFormed) ?_
  intro pre p post c he hc
  rw [he] at hn hdead
  exact hc.step ht (hdead p (List.mem_append_right _ List.mem_cons_self)) fun hp =>
    (List.nodup_append.1 hn).2.2 p hp p List.mem_cons_self rfl

theorem removeAll_yields {b : Builder} (hb : b.func.Coherent) {dead : List BlockId}
    (hn : dead.Nodup) (hdead : ∀ c ∈ dead, c ∈ b.func.blocks)
    (hfree : ∀ {i inst}, b.flow.inst? i = some inst → ∀ c ∈ inst.blocks, c ∉ dead) :
    (dead.foldlM (fun (b : Builder) block => do
      Run.debug fun _ => .ok ("Remove unreachable " ++ b.func.blockText block)
      b.removeBlock block) b : Run Builder).Yields fun c => ∃ τ, b.func.Stripped c.func dead τ := by
  refine Run.yields_foldlM (fun done (c : Builder) => ∃ τ, b.func.Stripped c.func done τ)
    ⟨_, .refl hb⟩ ?_
  rintro pre p post c he ⟨τ, hc⟩
  have hp : p ∉ pre := fun hp => by
    rw [he] at hn
    exact (List.nodup_append.1 hn).2.2 p hp p List.mem_cons_self rfl
  have hpd : p ∈ dead := he ▸ List.mem_append_right _ List.mem_cons_self
  have hmem : p ∈ c.func.blocks := by
    rw [hc.blocks, List.mem_filter, decide_eq_true_eq]
    exact ⟨hdead p hpd, hp⟩
  refine (Run.yields_log (P := fun _ => True) trivial).bind fun _ _ => ?_
  obtain ⟨d, τ', hd, hstrip⟩ := Builder.removeBlock_ok hc.coherent hmem fun {i inst'} hi hpi => by
    obtain ⟨-, inst, hinst, rfl⟩ := hc.inst_iff.1 hi
    rw [Inst.blocks_mapArgs] at hpi
    exact hfree hinst p hpi hpd
  exact Run.yields_lift ⟨d, hd, _, hc.append hstrip hb hp⟩

theorem removeUnreachable_yields {b : Builder} {entry : BlockId} (ht : b.func.Neat entry) :
    (removeUnreachable b).Yields fun r => b.Eased r.2 entry r.1 ∧
      ∀ c ∈ r.2.func.blocks, Connects r.2.func.Leads entry c := by
  have hf := ht.toFormed
  obtain ⟨dead, hdead, hn, hmem⟩ := unreachable_ok hf.starts hf.shape.closed
  replace hn := hn hf.coherent.layout.blocks_nodup
  have hin : ∀ c ∈ dead, c ∈ b.func.blocks := fun c hc => ((hmem c).1 hc).1
  have hconnects : ∀ {c}, c ∈ b.func.blocks → c ∉ dead →
      Connects b.func.Leads entry c := fun hc hn =>
    Classical.byContradiction fun h => hn ((hmem _).2 ⟨hc, h⟩)
  unfold removeUnreachable
  refine (Run.yields_lift ⟨dead, hdead, rfl⟩).bind ?_
  rintro _ rfl
  split
  · rename_i hempty
    rw [List.isEmpty_iff] at hempty
    exact Run.yields_pure ⟨.refl ht, fun c hc => hconnects hc (hempty ▸ List.not_mem_nil)⟩
  · rename_i hsome
    obtain ⟨first, hfirst⟩ := List.exists_mem_of_ne_nil _ fun h => hsome (List.isEmpty_iff.2 h)
    obtain ⟨c, hc, hcut⟩ := cutAll_ok ht hn hin
    refine (Run.yields_lift ⟨c, hc, rfl⟩).bind ?_
    rintro _ rfl
    have hblocks : c.func.blocks = b.func.blocks := hcut.alike.blocks
    refine (removeAll_yields hcut.coherent hn (fun d hd => hblocks ▸ hin d hd)
      (hcut.unnamed hf hmem)).bind ?_
    rintro d ⟨τ, hstrip⟩
    have hpruned := hcut.pruned ht hmem hstrip
    have hkept : ∀ e ∈ d.func.blocks, e ∈ b.func.blocks ∧ e ∉ dead := by
      intro e he
      rwa [hstrip.blocks, hblocks, List.mem_filter, decide_eq_true_eq] at he
    have hlength : d.func.blocks.length < b.func.blocks.length := by
      rw [hstrip.blocks, hblocks]
      exact List.length_filter_lt_length_iff_exists.2 ⟨first, hin first hfirst,
        by simpa using hfirst⟩
    have hweight : d.func.flow.weight ≤ b.func.flow.weight := hstrip.weight.trans (hcut.weight hf)
    refine Run.yields_pure ⟨⟨hpruned.neat ht, hpruned.tidy,
      fun htidy _ _ => hpruned.returns htidy, ?_,
      fun h => by cases h⟩, fun e he => ?_⟩
    · simp only [Func.extent, Bool.toNat_true]
      omega
    · refine connects_of_cut (fun {a a'} ha hl => ?_) (hconnects (hkept e he).1 (hkept e he).2)
      have haway : ∀ {x}, Connects b.func.Leads entry x → x ∉ dead :=
        fun hx hd => ((hmem _).1 hd).2 hx
      exact (hpruned.gate_iff (haway (ha.step hl)) hl).1 (by simpa using haway ha)

end FlowSimplification

end MiddleEnd
