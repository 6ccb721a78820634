import MiddleEnd.Proofs.PhiLowering
import MiddleEnd.Proofs.SplitRuns

/-!
# Registers for phis verify

A function whose phis were lowered verifies if the one it came from did. Copies are between
registers and values of one type, a register is there at all times, and what a copy reads at the end
of a block is what a phi took from there.
-/

namespace MiddleEnd

theorem split_cases {α : Type} {body ks pre post : List α} {last u : α}
    (h : body ++ (ks ++ [last]) = pre ++ u :: post) :
    (∃ rest, body = pre ++ u :: rest ∧ post = rest ++ (ks ++ [last])) ∨
      (∃ before behind, ks = before ++ u :: behind ∧ post = behind ++ [last]) ∨
      (u = last ∧ post = []) := by
  rcases List.append_eq_append_iff.1 h with ⟨mid, rfl, hks⟩ | ⟨mid, rfl, hpost⟩
  · refine .inr ?_
    rcases List.append_eq_append_iff.1 hks with ⟨mid', rfl, hlast⟩ | ⟨mid', rfl, hpost⟩
    · cases mid' with
      | nil =>
        cases hlast
        exact .inr ⟨rfl, rfl⟩
      | cons x mid' => simp at hlast
    · cases mid' with
      | nil =>
        cases hpost
        exact .inr ⟨rfl, rfl⟩
      | cons x mid' =>
        cases hpost
        exact .inl ⟨mid, mid', rfl, rfl⟩
  · cases mid with
    | nil =>
      rw [List.nil_append] at hpost
      refine .inr ?_
      cases ks with
      | nil =>
        cases hpost
        exact .inr ⟨rfl, rfl⟩
      | cons x ks =>
        cases hpost
        exact .inl ⟨[], ks, rfl, rfl⟩
    | cons x mid =>
      cases hpost
      exact .inl ⟨mid, rfl, rfl⟩

namespace PhiLowering.Translated

open Func

variable {c d : Func} {regs : Registers} {moves : BlockId → List (ValueId × ValueId)}
  {entry : BlockId} (h : Translated c d regs moves) (hc : c.Lowerable entry)

include h hc

omit h in
theorem mem_phis {i : InstId} : i ∈ c.allPhis ↔ c.flow.isPhi i = true :=
  mem_allPhis hc.coherent hc.shape

theorem given {phi : InstId} (hphi : c.flow.isPhi phi = true) :
    ∃ v r, c.flow.result? phi = some v ∧ regs.get? v = some r :=
  h.assigned.given phi ((mem_phis hc).2 hphi)

omit hc in
theorem inPlace_cases {v : ValueId} {o : ValueDef} (ho : c.flow.origin? v = some o) :
    (∃ r, regs.get? v = some r ∧ inPlace regs v = r ∧ d.flow.origin? r = some (.reg o.ty)) ∨
      (regs.get? v = none ∧ inPlace regs v = v ∧ d.flow.origin? v = some o) := by
  unfold inPlace
  cases hr : regs.get? v with
  | some r =>
    obtain ⟨o', ho', hreg⟩ := h.assigned.kind hr
    cases ho.symm.trans ho'
    exact .inl ⟨r, rfl, rfl, hreg⟩
  | none =>
    refine .inr ⟨rfl, rfl, h.lowered.origin? ho fun phi hphi hv => ?_⟩
    obtain ⟨w, r, hw, hr'⟩ := h.assigned.given phi hphi
    cases hv.symm.trans hw
    rw [hr] at hr'
    cases hr'

omit hc in
theorem tyOf_inPlace {v : ValueId} {o : ValueDef} (ho : c.flow.origin? v = some o) :
    d.tyOf (inPlace regs v) = c.tyOf v := by
  rcases h.inPlace_cases ho with ⟨r, -, he, hr⟩ | ⟨-, he, hv⟩
  · rw [he, tyOf_eq hr, tyOf_eq ho]
    rfl
  · rw [he, tyOf_eq hv, tyOf_eq ho]

omit hc in
theorem standIn_eq (v : ValueId) : standIn c regs c.allPhis v = inPlace regs v := by
  unfold standIn
  split
  · rfl
  · rename_i hnot
    unfold inPlace
    cases hr : regs.get? v with
    | none => rfl
    | some r =>
      obtain ⟨phi, hphi, hv⟩ := h.assigned.result hr
      exact absurd ⟨phi, hphi, hv⟩ hnot

theorem kept {i : InstId} {inst : Inst} (hi : c.flow.inst? i = some inst)
    (hphi : c.flow.isPhi i = false) :
    d.flow.inst? i = some (inst.mapArgs (inPlace regs)) := by
  have hgone : i ∉ c.allPhis := fun hm => by
    rw [(mem_phis hc).1 hm] at hphi
    cases hphi
  rw [h.lowered.kept hi hgone, show standIn c regs c.allPhis = inPlace regs from
    funext h.standIn_eq]

theorem result? {i : InstId} {inst : Inst} (hi : c.flow.inst? i = some inst)
    (hphi : c.flow.isPhi i = false) :
    d.flow.result? i = c.flow.result? i := by
  refine h.lowered.result? hi fun hm => ?_
  rw [(mem_phis hc).1 hm] at hphi
  cases hphi

theorem get?_result {i : InstId} {v : ValueId} (hv : c.flow.result? i = some v)
    (hphi : c.flow.isPhi i = false) :
    regs.get? v = none := by
  cases hr : regs.get? v with
  | none => rfl
  | some r =>
    obtain ⟨phi, hm, hphiv⟩ := h.assigned.result hr
    obtain ⟨ty, ho, -⟩ := hc.coherent.flow.result_origin hv
    rw [hc.coherent.flow.definer_eq hphiv ho, (mem_phis hc).1 hm] at hphi
    cases hphi

theorem insts_eq {b : BlockId} {phis body : List InstId} {last : InstId}
    (hxs : c.insts b = .ok (phis ++ (body ++ [last]))) (hs : c.Shaped b phis body last) :
    ∃ ks, d.insts b = .ok (body ++ (ks ++ [last])) ∧ Spelled d ks (moves b) := by
  have hfront : c.insts b = .ok ((phis ++ body) ++ [last]) := by rw [hxs, List.append_assoc]
  obtain ⟨ks, hks, hspell⟩ := h.lowered.last hfront hs.isTerminator
  refine ⟨ks, ?_, hspell⟩
  rw [hks, List.filter_append, List.filter_eq_nil_iff.2, List.filter_eq_self.2, List.nil_append]
  · intro i hi
    refine decide_eq_true fun hm => ?_
    have hphi := (hs.plain i hi).1
    rw [(mem_phis hc).1 hm] at hphi
    cases hphi
  · intro i hi
    simpa using (mem_phis hc).2 (hs.isPhi i hi)

theorem insts_cases {b : BlockId} {ys : List InstId} (hys : d.insts b = .ok ys) :
    ∃ phis body last ks, c.insts b = .ok (phis ++ (body ++ [last])) ∧ c.Shaped b phis body last ∧
      ys = body ++ (ks ++ [last]) ∧ Spelled d ks (moves b) := by
  have hb : b ∈ d.blocks := Layout.mem_blocks_iff.2 ⟨ys, hys⟩
  rw [h.lowered.blocks] at hb
  obtain ⟨xs, hxs⟩ := Layout.mem_blocks_iff.1 hb
  obtain ⟨phis, body, last, rfl, hs⟩ := hc.shape.shaped hxs
  obtain ⟨ks, hks, hspell⟩ := h.insts_eq hc hxs hs
  cases hys.symm.trans hks
  exact ⟨phis, body, last, ks, hxs, hs, rfl, hspell⟩

theorem leads_eq : d.Leads = c.Leads :=
  funext fun _ => funext fun _ => propext (h.lowered.leads_iff hc.shape fun _ hi =>
    (mem_phis hc).1 hi)

theorem inst_cases {i : InstId} {inst' : Inst} (hi : d.flow.inst? i = some inst') :
    (∃ inst, c.flow.inst? i = some inst ∧ c.flow.isPhi i = false ∧
      inst' = inst.mapArgs (inPlace regs)) ∨
      ∃ a ∈ c.blocks, ∃ m ∈ moves a, inst' = .binary .copy m.1 m.2 := by
  refine (h.lowered.inst_cases hc.coherent hc.shape (fun _ hm => (mem_phis hc).1 hm) hi).imp_left ?_
  rintro ⟨old, hold, hgone, rfl⟩
  refine ⟨old, hold, Bool.eq_false_iff.2 fun hphi => hgone ((mem_phis hc).2 hphi), ?_⟩
  rw [show standIn c regs c.allPhis = inPlace regs from funext h.standIn_eq]

theorem moves_spec {a : BlockId} {m : ValueId × ValueId} (hm : m ∈ moves a) :
    (∃ ty, d.flow.origin? m.1 = some (.reg ty)) ∧ d.tyOf m.1 = d.tyOf m.2 ∧
      ((∃ phi inst v, c.flow.isPhi phi = true ∧ c.flow.inst? phi = some inst ∧ (v, a) ∈ inst.edges ∧
          m.2 = inPlace regs v) ∨ ∃ ty, d.flow.origin? m.2 = some (.reg ty)) := by
  obtain ⟨g, hg, hregs, harr⟩ := h.arranged a
  have hcopy : ∀ p ∈ blockCopies c.flow regs c.allPhis a,
      (∃ ty, d.flow.origin? p.1 = some (.reg ty)) ∧ d.tyOf p.1 = d.tyOf p.2 ∧
      ∃ phi inst v, c.flow.isPhi phi = true ∧ c.flow.inst? phi = some inst ∧
        (v, a) ∈ inst.edges ∧ p.2 = inPlace regs v := by
    intro p hp
    obtain ⟨phi, hphi, w, inst, v, hw, hi, he, rfl⟩ := mem_blockCopies.1 hp
    obtain ⟨ty, how, -⟩ := hc.coherent.flow.result_origin hw
    obtain ⟨o, hov⟩ := hc.coherent.flow.operand hi (Inst.arg_of_edge he)
    refine ⟨?_, ?_, phi, inst, v, (mem_phis hc).1 hphi, hi, he, rfl⟩
    · obtain ⟨w', r, hw', hr⟩ := h.assigned.given phi hphi
      cases hw.symm.trans hw'
      obtain ⟨o', -, hreg⟩ := h.assigned.kind hr
      exact ⟨o'.ty, by rw [inPlace, hr, Option.getD_some]; exact hreg⟩
    · rw [h.tyOf_inPlace how, h.tyOf_inPlace hov]
      have hrule := hc.typed hi
      have hyield : c.yieldTy phi = c.tyOf w := by
        unfold Func.yieldTy
        rw [hw]
        rfl
      rw [hyield] at hrule
      cases inst with
      | phi op args preds => exact (hrule v (Inst.arg_of_edge he)).symm
      | _ => cases he
  obtain ⟨htarget, hsource⟩ := harr.targets (fun p hp => (hcopy p hp).1) m hm
  refine ⟨htarget, ?_, ?_⟩
  · obtain ⟨saves, hseq, hsaves⟩ := harr
    have hpending : ∀ p ∈ ParallelCopy.moves (blockCopies c.flow regs c.allPhis a),
        d.tyOf p.1 = d.tyOf p.2 :=
      fun p hp => (hcopy p (ParallelCopy.mem_moves.1 hp).1).2.1
    refine hseq.alike hpending (fun p hp => ?_) m hm
    obtain ⟨ty, hx, ht⟩ := (hsaves p hp).kind
    rw [tyOf_eq hx, tyOf_eq ht]
  · rcases hsource with ⟨p, hp, he⟩ | hreg
    · obtain ⟨-, -, phi, inst, v, hphi, hi, hedge, hp2⟩ := hcopy p hp
      exact .inl ⟨phi, inst, v, hphi, hi, hedge, he.trans hp2⟩
    · exact .inr hreg

theorem no_phi (i : InstId) : d.flow.isPhi i = false :=
  h.lowered.no_phi hc.coherent hc.shape (fun _ => mem_phis hc) i

theorem wellShaped : d.WellShaped where
  shaped {b ys} hys := by
    obtain ⟨phis, body, last, ks, hxs, hs, rfl, hspell⟩ := h.insts_cases hc hys
    have hkind : ∀ {i}, i ∈ body ++ [last] → d.flow.isTerminator i = c.flow.isTerminator i := by
      intro i hi
      obtain ⟨inst, hinst⟩ := hc.coherent.inst_of_mem hxs (List.mem_append_right _ hi)
      rw [DataFlow.isTerminator_of_inst hinst,
        DataFlow.isTerminator_of_inst (h.kept hc hinst (hs.not_phi i hi)), Inst.op_mapArgs]
    refine ⟨[], body ++ ks, last, by rw [List.nil_append, List.append_assoc],
      fun _ hi => absurd hi List.not_mem_nil,
      fun i hi => ⟨h.no_phi hc i, ?_⟩, ?_, fun hi => absurd hi List.not_mem_nil⟩
    · rcases List.mem_append.1 hi with hi | hi
      · rw [hkind (List.mem_append_left _ hi)]
        exact (hs.plain i hi).2
      · obtain ⟨m, -, hk⟩ := hspell.of_mem hi
        rw [DataFlow.isTerminator_of_inst hk]
        rfl
    · rw [hkind (List.mem_append_right _ List.mem_cons_self)]
      exact hs.isTerminator
  targets {i inst'} hi b hb := by
    rw [h.lowered.blocks]
    rcases h.inst_cases hc hi with ⟨inst, hinst, -, rfl⟩ | ⟨a, -, m, -, rfl⟩
    · rw [Inst.blocks_mapArgs] at hb
      exact hc.shape.targets hinst b hb
    · cases hb

theorem formed : d.Formed entry where
  coherent := h.lowered.coherent
  starts := h.lowered.alike.starts hc.starts
  shape := h.wellShaped hc
  forms {i inst'} hi := by
    rcases h.inst_cases hc hi with ⟨inst, hinst, -, rfl⟩ | ⟨a, -, m, -, rfl⟩
    · have hform := hc.forms hinst
      cases inst <;> exact hform
    · rfl
  bare _ i _ := h.no_phi hc i

theorem result_origin {i : InstId} (hphi : c.flow.isPhi i = false)
    {v : ValueId} {ty : Ty} (hv : c.flow.result? i = some v)
    (ho : c.flow.origin? v = some (.result ty i)) :
    d.flow.origin? v = some (.result ty i) := by
  rcases h.inPlace_cases ho with ⟨r, hr, -, -⟩ | ⟨-, -, ho'⟩
  · rw [h.get?_result hc hv hphi] at hr
    cases hr
  · exact ho'

theorem typed : d.Typed := by
  intro i inst' hi
  rcases h.inst_cases hc hi with ⟨inst, hinst, hphi, rfl⟩ | ⟨a, -, m, hm, rfl⟩
  · have hyield : d.yieldTy i = c.yieldTy i :=
      yieldTy_congr hc.coherent.flow (h.result? hc hinst hphi) fun hv ho =>
        h.result_origin hc hphi hv ho
    rw [hyield]
    refine (Inst.Matches.of_mapArgs (R := fun v v' => v' = inPlace regs v) fun _ _ =>
      rfl).rule (f := c) ?_ h.lowered.alike.sig h.lowered.imports ?_ (hc.typed hinst)
    · rintro v _ hv rfl
      obtain ⟨o, ho⟩ := hc.coherent.flow.operand hinst hv
      exact h.tyOf_inPlace ho
    · rintro - v _ hv rfl hreg
      obtain ⟨o, ho⟩ := hc.coherent.flow.operand hinst hv
      rw [ho] at hreg
      rcases h.inPlace_cases ho with ⟨r, -, he, hr⟩ | ⟨-, he, hr⟩
      · rw [he, hr]
        rfl
      · rw [he, hr]
        exact hreg
  · obtain ⟨⟨ty, ho⟩, hty, -⟩ := h.moves_spec hc hm
    refine ⟨?_, hty⟩
    rw [ho]
    rfl

theorem still {v : ValueId} {ty : Ty} {i : InstId} (hnone : regs.get? v = none)
    (hv : c.flow.origin? v = some (.result ty i)) {home : BlockId} {xs : List InstId}
    (hhome : c.insts home = .ok xs) (hi : i ∈ xs) :
    c.flow.isPhi i = false ∧ ∃ ys, d.insts home = .ok ys ∧ i ∈ ys := by
  have hphi : c.flow.isPhi i = false := Bool.eq_false_iff.2 fun hphi => by
    obtain ⟨w, r, hw, hr⟩ := h.given hc hphi
    cases hw.symm.trans (hc.coherent.flow.origin_result hv)
    rw [hnone] at hr
    cases hr
  obtain ⟨phis, body, last, rfl, hs⟩ := hc.shape.shaped hhome
  obtain ⟨ks, hks, -⟩ := h.insts_eq hc hhome hs
  refine ⟨hphi, _, hks, ?_⟩
  rcases List.mem_append.1 hi with hm | hm
  · rw [hs.isPhi i hm] at hphi
    cases hphi
  · rcases List.mem_append.1 hm with hm | hm
    · exact List.mem_append_left _ hm
    · exact List.mem_append_right _ (List.mem_append_right _ hm)

theorem avail {b : BlockId} {rest rest' : List InstId} {v : ValueId} {o : ValueDef}
    (hv : c.flow.origin? v = some o) {E : BlockId → BlockId → Prop} (ha : c.Avail E entry b rest v)
    (hrest : ∀ i ∈ rest', i ∈ rest ∨ ∃ x y, d.flow.inst? i = some (.binary .copy x y)) :
    d.Avail E entry b rest' (inPlace regs v) := by
  intro ty i ho
  rcases h.inPlace_cases hv with ⟨r, -, he, hr⟩ | ⟨hnone, he, hv'⟩
  · rw [he, hr] at ho
    cases ho
  · rw [he, hv'] at ho
    cases ho
    obtain ⟨home, xs, hhome, hi, hg, hout⟩ := ha hv
    obtain ⟨hphi, ys, hys, hi'⟩ := h.still hc hnone hv hhome hi
    obtain ⟨inst, hinst⟩ := hc.coherent.inst_of_mem hhome hi
    refine ⟨home, ys, hys, hi', hg, fun hb hm => ?_⟩
    rcases hrest i hm with hm | ⟨x, y, hcopy⟩
    · exact hout hb hm
    · rw [h.kept hc hinst hphi] at hcopy
      cases inst with
      | binary op x' y' =>
        injection Option.some.inj hcopy with hop
        subst hop
        exact hc.noCopies hinst
      | _ => cases hcopy

theorem stranded {b : BlockId} {rest : List InstId} {v : ValueId} (hs : c.Stranded entry v) :
    d.Avail c.Leads entry b rest (inPlace regs v) ∨ d.Stranded entry (inPlace regs v) := by
  obtain ⟨ty, i, home, xs, ho, hhome, hi, hun⟩ := hs
  rcases h.inPlace_cases ho with ⟨r, -, he, hr⟩ | ⟨hnone, he, hv⟩
  · refine .inl fun ty' j hj => ?_
    rw [he, hr] at hj
    cases hj
  · obtain ⟨-, ys, hys, hi'⟩ := h.still hc hnone ho hhome hi
    refine .inr ⟨ty, i, home, ys, he.symm ▸ hv, hys, hi', ?_⟩
    rw [h.leads_eq hc]
    exact hun

omit h in
theorem avail_edge {phi : InstId} {inst : Inst} {v : ValueId} {a : BlockId} {pre : List InstId}
    {last : InstId} (hphi : c.flow.isPhi phi = true) (hi : c.flow.inst? phi = some inst)
    (he : (v, a) ∈ inst.edges) (ha : Connects c.Leads entry a)
    (hxs : c.insts a = .ok (pre ++ [last])) :
    c.Computed entry v ∧ c.Avail c.Leads entry a [last] v := by
  obtain ⟨b, ys, hys, hmem⟩ := hc.coherent.home hi
  have hop : inst.op.isPhi = true := (DataFlow.isPhi_of_inst hi).symm.trans hphi
  have hl : c.Leads a b := ((hc.shape.phi_edges hys hmem hphi hi).2 a).1 (Inst.block_of_edge he)
  have hcomp := hc.computed hys hmem hi hop he ha
  refine ⟨hcomp, fun ty i ho => ?_⟩
  obtain ⟨-, hterm, home, xs, hhome, hix, hcon⟩ := hcomp.result ho
  rcases hc.dominated.phis (ha.step hl) hys hmem hi hop he ha with hav | ⟨ty', j, home', xs', ho',
    hhome', hj, hun⟩
  · obtain ⟨hg, -⟩ := (hc.behind_iff hhome hix).1 (hav ho)
    refine (hc.behind_iff hhome hix).2 ⟨hg, fun _ hm => ?_⟩
    rw [List.mem_singleton.1 hm, (hc.terminator_iff hxs).2 rfl] at hterm
    cases hterm
  · rw [ho] at ho'
    cases ho'
    rw [hc.coherent.layout.one_block hhome' hhome hj hix] at hun
    exact absurd hcon hun

omit h hc in
theorem avail_reg {b : BlockId} {rest : List InstId} {r : ValueId} {ty : Ty}
    (hr : d.flow.origin? r = some (.reg ty)) {E : BlockId → BlockId → Prop} :
    d.Avail E entry b rest r := by
  intro ty' i ho
  rw [hr] at ho
  cases ho

theorem dominated : d.Dominated entry where
  body {b pre u post inst' v'} hb hys hu hphi hv' := by
    rw [h.leads_eq hc] at hb ⊢
    obtain ⟨phis, body, last, ks, hxs, hs, hsplit, hspell⟩ := h.insts_cases hc hys
    -- What is still to run where an instruction was kept was still to run, or is a copy.
    have hkept : ∀ pre' rest, c.insts b = .ok (pre' ++ u :: rest) → c.flow.isPhi u = false →
        (∀ i ∈ u :: post, i ∈ u :: rest ∨ ∃ x y, d.flow.inst? i = some (.binary .copy x y)) →
        d.Avail c.Leads entry b (u :: post) v' ∨ d.Stranded entry v' := by
      intro pre' rest hxs' hplain hrest
      obtain ⟨inst, hinst⟩ :=
        hc.coherent.inst_of_mem hxs' (List.mem_append_right _ List.mem_cons_self)
      cases hu.symm.trans (h.kept hc hinst hplain)
      rw [Inst.args_mapArgs] at hv'
      obtain ⟨v, hv, rfl⟩ := List.mem_map.1 hv'
      obtain ⟨o, ho⟩ := hc.coherent.flow.operand hinst hv
      rcases hc.dominated.body hb hxs' hinst ((DataFlow.isPhi_of_inst hinst).symm.trans hplain) hv
        with hav | hstr
      · exact .inl (h.avail hc ho hav hrest)
      · exact h.stranded hc hstr
    have hcopy : ∀ {k}, k ∈ ks → ∃ x y, d.flow.inst? k = some (.binary .copy x y) := by
      intro k hk
      obtain ⟨m, -, hm⟩ := hspell.of_mem hk
      exact ⟨m.1, m.2, hm⟩
    rcases split_cases hsplit.symm with ⟨rest, rfl, rfl⟩ | ⟨before, behind, rfl, rfl⟩ | ⟨rfl, rfl⟩
    · refine hkept (phis ++ pre) (rest ++ [last]) (by rw [hxs]; simp) (hs.plain u (by simp)).1 ?_
      intro i hi
      rcases List.mem_cons.1 hi with rfl | hi
      · exact .inl List.mem_cons_self
      rcases List.mem_append.1 hi with hi | hi
      · exact .inl (List.mem_cons_of_mem _ (List.mem_append_left _ hi))
      rcases List.mem_append.1 hi with hi | hi
      · exact .inr (hcopy hi)
      · exact .inl (List.mem_cons_of_mem _ (List.mem_append_right _ hi))
    · obtain ⟨m, hm, hu'⟩ := hspell.of_mem (List.mem_append_right before List.mem_cons_self)
      cases hu.symm.trans hu'
      obtain ⟨⟨ty, htarget⟩, -, hsource⟩ := h.moves_spec hc hm
      rcases List.mem_cons.1 hv' with rfl | hv'
      · exact .inl (avail_reg htarget)
      · obtain rfl := List.mem_singleton.1 hv'
        rcases hsource with ⟨phi, inst, v, hisphi, hi, he, hmv⟩ | ⟨ty', hreg⟩
        · obtain ⟨o, ho⟩ := hc.coherent.flow.operand hi (Inst.arg_of_edge he)
          have hlast : c.insts b = .ok (phis ++ body ++ [last]) := by rw [hxs, List.append_assoc]
          rw [hmv]
          refine .inl (h.avail hc ho (avail_edge hc hisphi hi he hb hlast).2 fun i hi => ?_)
          rcases List.mem_cons.1 hi with rfl | hi
          · exact .inr ⟨_, _, hu⟩
          rcases List.mem_append.1 hi with hi | hi
          · exact .inr (hcopy (List.mem_append_right _ (List.mem_cons_of_mem _ hi)))
          · exact .inl hi
        · exact .inl (avail_reg hreg)
    · refine hkept (phis ++ body) [] (by rw [hxs, List.append_assoc]) ?_ fun i hi => .inl hi
      exact hs.not_phi u (List.mem_append_right _ List.mem_cons_self)
  phis {b ys u inst' v p} _ _ _ hu hphi _ _ := by
    rw [← DataFlow.isPhi_of_inst hu, h.no_phi hc] at hphi
    cases hphi

theorem rooted : d.Rooted entry where
  toFormed := h.formed hc
  typed := h.typed hc
  dominated := h.dominated hc
  source a := by
    rw [h.leads_eq hc]
    exact hc.source a
  phis {b ys i} _ _ _ hphi := by
    rw [h.no_phi hc] at hphi
    cases hphi

end PhiLowering.Translated

end MiddleEnd
