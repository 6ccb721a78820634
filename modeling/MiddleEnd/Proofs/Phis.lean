import MiddleEnd.Proofs.Refinement

/-!
# Phis that merge the same

A phi that merges a single value, apart from itself, is that value: control comes to the block for
the first time along an edge that brings the value, so the value was there before, and no way back
to the block changes it. Two phis of a block that merge the same on every edge are the same.
-/

namespace MiddleEnd

namespace Func

variable {f : Func} {entry home : BlockId} {xs : List InstId} {phi : InstId}

theorem WellShaped.edge_of_leads (hs : f.WellShaped) (hc : f.Coherent)
    (hhome : f.insts home = .ok xs) (hmem : phi ∈ xs) {inst : Inst}
    (hinst : f.flow.inst? phi = some inst) (hform : Verify.formFits inst = true)
    (hop : inst.op.isPhi = true) {p : BlockId} (hE : f.Leads p home) :
    ∃ x, (x, p) ∈ inst.edges := by
  obtain ⟨-, hb⟩ := hs.phi_edges hhome hmem ((DataFlow.isPhi_of_inst hinst).trans hop) hinst
  obtain ⟨args, preds, rfl⟩ := Verify.phi_of_form hform hop
  have hlen := hc.flow.phi_lengths hinst
  obtain ⟨n, hnp⟩ := List.mem_iff_getElem?.1 ((hb p).2 hE)
  have hlt : n < args.length := by
    rw [hlen]
    exact (List.getElem?_eq_some_iff.1 hnp).1
  exact ⟨args[n], List.mem_of_getElem?
    (List.getElem?_zip_eq_some.2 ⟨List.getElem?_eq_getElem hlt, hnp⟩)⟩

theorem Formed.incoming (hf : f.Formed entry) (hhome : f.insts home = .ok xs)
    (hphi : phi ∈ xs.takeWhile f.flow.isPhi) {p : BlockId} (hE : f.Leads p home) :
    ∃ x inst, f.flow.inst? phi = some inst ∧ f.flow.incoming? phi p = .ok (some x) ∧
      (x, p) ∈ inst.edges ∧ inst.op.isPhi = true := by
  have hmem : phi ∈ xs := (List.takeWhile_prefix _).subset hphi
  have hisphi : f.flow.isPhi phi = true := List.all_eq_true.1 List.all_takeWhile phi hphi
  obtain ⟨inst, hinst⟩ := hf.coherent.inst_of_mem hhome hmem
  obtain ⟨hn, -⟩ := hf.shape.phi_edges hhome hmem hisphi hinst
  have hop : inst.op.isPhi = true := by
    rw [← DataFlow.isPhi_of_inst hinst]
    exact hisphi
  obtain ⟨x, hedge⟩ := hf.shape.edge_of_leads hf.coherent hhome hmem hinst (hf.forms hinst) hop hE
  exact ⟨x, inst, hinst, DataFlow.incoming?_of_edge hinst hn hedge, hedge, hop⟩

end Func

namespace Func.Formed

variable {f : Func} {E : BlockId → BlockId → Prop} {entry home : BlockId} {xs : List InstId}
  {phi psi : InstId} {r q v : ValueId}

/-- If every way to the block of a phi brings a value or the result of the phi, the value comes from
a block on every way there: on the first arrival the result cannot be there. -/
theorem single_guards (hf : f.Formed entry) (hhome : f.insts home = .ok xs)
    (hphi : phi ∈ xs.takeWhile f.flow.isPhi) (hr : f.flow.result? phi = some r)
    (hcon : Connects E entry home)
    (hin : ∀ {p}, Connects E entry p → E p home → f.Avail E entry p [] v ∨ f.Avail E entry p [] r)
    {ty : Ty} {j : InstId} (hv : f.flow.origin? v = some (.result ty j)) {jhome : BlockId}
    {ys : List InstId} (hj : f.insts jhome = .ok ys) (hjy : j ∈ ys) :
    jhome ≠ home ∧ Guards E entry jhome home := by
  have hmem : phi ∈ xs := (List.takeWhile_prefix _).subset hphi
  have harrive : ∀ {w}, Walk E entry home w → ∃ c q, Walk E entry c q ∧ home ∉ q ∧
      (∀ x ∈ q, x ∈ w) ∧ jhome ∈ q := by
    intro w hw
    rcases hw.first_arrival hw.end_mem with he | ⟨c, q, hq, hE, hout, hsub⟩
    · have hbare := hf.bare (he ▸ hhome) phi hmem
      rw [List.all_eq_true.1 List.all_takeWhile phi hphi] at hbare
      cases hbare
    · refine ⟨c, q, hq, hout, hsub, ?_⟩
      rcases hin ⟨q, hq⟩ hE with hvc | hrc
      · exact ((hf.behind_iff hj hjy).1 (hvc hv)).1.2 q hq
      · have hback := (hf.behind_iff hhome hmem).1 ((hf.coherent.avail_iff hr).1 hrc)
        exact absurd (hback.1.2 q hq) hout
  refine ⟨?_, hcon, fun w hw => ?_⟩
  · obtain ⟨w, hw⟩ := hcon
    obtain ⟨c, q, -, hout, -, hq⟩ := harrive hw
    rintro rfl
    exact hout hq
  · obtain ⟨c, q, -, -, hsub, hq⟩ := harrive hw
    exact hsub _ hq

theorem older_of_single (hf : f.Formed entry) (hhome : f.insts home = .ok xs)
    (hphi : phi ∈ xs.takeWhile f.flow.isPhi) (hr : f.flow.result? phi = some r)
    (hin : ∀ {p}, Connects E entry p → E p home → f.Avail E entry p [] v ∨ f.Avail E entry p [] r) :
    f.Older E entry r v := by
  have hmem : phi ∈ xs := (List.takeWhile_prefix _).subset hphi
  intro b rest hspot hav ty j hv
  obtain ⟨hg, -⟩ := (hf.behind_iff hhome hmem).1 ((hf.coherent.avail_iff hr).1 hav)
  obtain ⟨jnst, hj⟩ := DataFlow.hasInst_of_result (hf.coherent.flow.origin_result hv)
  obtain ⟨jhome, ys, hys, hjy⟩ := hf.coherent.home hj
  obtain ⟨hne, hgj⟩ := hf.single_guards hhome hphi hr hg.connects hin hv hys hjy
  refine ⟨jhome, ys, hys, hjy, hgj.trans hg, fun he => ?_⟩
  subst he
  exact absurd (hgj.antisymm hg) hne

theorem older_of_before (hf : f.Formed entry) {pre post : List InstId}
    (hhome : f.insts home = .ok (pre ++ phi :: post)) (hpsi : psi ∈ pre)
    (hr : f.flow.result? phi = some r) (hq : f.flow.result? psi = some q) :
    f.Older E entry r q := by
  intro b rest hspot hav
  have hmem : phi ∈ pre ++ phi :: post := List.mem_append_right _ List.mem_cons_self
  obtain ⟨pre', hpre'⟩ := hspot.suffix
  have hb := (hf.coherent.avail_iff hr).1 hav
  have hcon : Connects E entry home := ((hf.behind_iff hhome hmem).1 hb).1.connects
  have hn := hf.coherent.layout.insts_nodup hhome
  refine (hf.coherent.avail_iff hq).2 (hf.behind_trans hhome ?_ hpre' hb)
  refine ⟨home, _, hhome, List.mem_append_left _ hpsi, hcon.guards_self, fun _ hm => ?_⟩
  exact (List.nodup_append.1 hn).2.2 psi hpsi psi hm rfl

end Func.Formed

theorem Func.Orderly.single_there {f : Func} {E : BlockId → BlockId → Prop} {entry home : BlockId}
    {xs : List InstId} {phi : InstId} {r v : ValueId} (hf : f.Orderly E entry)
    (hhome : f.insts home = .ok xs) (hphi : phi ∈ xs.takeWhile f.flow.isPhi)
    (hin : ∀ {p x}, Connects E entry p → E p home → f.flow.incoming? phi p = .ok (some x) →
      ∃ y, f.Older E entry x y ∧ (y = v ∨ y = r)) {p : BlockId} (hp : Connects E entry p)
        (hE : E p home) :
    f.Avail E entry p [] v ∨ f.Avail E entry p [] r := by
  obtain ⟨x, inst, hinst, hx, hedge, hop⟩ := hf.incoming hhome hphi (hf.edges hE)
  obtain ⟨zs, hzs⟩ := Layout.mem_blocks_iff.1 (hf.edges hE).mem_blocks
  have hend : f.Spot E entry p [] := ⟨hp, zs, by rw [List.append_nil]; exact hzs⟩
  obtain ⟨y, hold, hy⟩ := hin hp hE hx
  have hyc :=
    hold hend (hf.phis hp hE hhome ((List.takeWhile_prefix _).subset hphi) hinst hop hedge)
  rcases hy with rfl | rfl
  · exact .inl hyc
  · exact .inr hyc

section Same

variable {f g : Func} {E : BlockId → BlockId → Prop} {entry home : BlockId} {s₀ s : Frame}
  {xs : List InstId} {phi psi : InstId} {r q v : ValueId}

theorem Frame.read_result {f : Func} {s : Frame} {v : ValueId} {ty : Ty} {i : InstId} {d : Datum}
    (ho : f.flow.origin? v = some (.result ty i)) : s.read f v = .ok d ↔ s.values v = some d := by
  unfold Frame.read
  rw [ho]
  cases s.values v <;> simp

theorem Frame.Entered.merged_same (hf : f.Orderly E entry) (h₀ : f.AtStart entry s₀)
    (hg : ∀ {v o}, f.flow.origin? v = some o → g.flow.origin? v = some o)
    (hhome : f.insts home = .ok xs) (hphi : phi ∈ xs.takeWhile f.flow.isPhi)
    (hr : f.flow.result? phi = some r) {s t : Frame} {last : InstId} (hs : Reached f E s₀ s)
    (hrest : s.rest = [last]) (hlast : f.flow.isTerminator last = true) (hE : E s.block home)
    (hent : Frame.Entered f s t home xs) :
    ∃ x d, f.flow.incoming? phi s.block = .ok (some x) ∧ f.Avail E entry s.block s.rest x ∧
      s.read g x = .ok d ∧ t.values r = some d := by
  have hmem : phi ∈ xs := (List.takeWhile_prefix _).subset hphi
  obtain ⟨x, w, d, hx, hw, hd, hset⟩ := hent.merged phi hphi
  rw [hr] at hw
  cases hw
  obtain ⟨x', inst, hinst, hx', hedge, hop⟩ := hf.incoming hhome hphi (hf.edges hE)
  rw [hx] at hx'
  cases hx'
  have hcon := (hf.sits_reached (hf.sits_atStart h₀) hs).connects
  have harg : x ∈ inst.args := Inst.arg_of_edge hedge
  obtain ⟨o, ho⟩ := hf.coherent.flow.operand hinst harg
  refine ⟨x, d, hx, ?_, ?_, hset⟩
  · rw [hrest]
    exact hf.avail_of_read h₀ hs hlast hd (hf.phis hcon hE hhome hmem hinst hop hedge)
  · rw [Frame.read_congr (f := f) ((hg ho).trans ho.symm) rfl]
    exact hd

/-- A phi that merges one value apart from itself is the same as the value. -/
theorem Same.of_single (hf : f.Orderly E entry) (h₀ : f.AtStart entry s₀)
    (hg : ∀ {v o}, f.flow.origin? v = some o → g.flow.origin? v = some o)
    (hhome : f.insts home = .ok xs) (hphi : phi ∈ xs.takeWhile f.flow.isPhi)
    (hr : f.flow.result? phi = some r)
    (hin : ∀ {p x}, Connects E entry p → E p home → f.flow.incoming? phi p = .ok (some x) →
      ∃ y, Same f E entry s₀ g x y ∧ (y = v ∨ y = r)) : Same f E entry s₀ g r v := by
  have hin' : ∀ {p}, Connects E entry p → E p home → f.Avail E entry p [] v ∨
      f.Avail E entry p [] r :=
    hf.single_there hhome hphi fun hp hE hx => by
      obtain ⟨y, hsame, hy⟩ := hin hp hE hx
      exact ⟨y, hsame.avail, hy⟩
  have hold := hf.older_of_single hhome hphi hr hin'
  obtain ⟨ty, ho, -⟩ := hf.coherent.flow.result_origin hr
  have hmem : phi ∈ xs := (List.takeWhile_prefix _).subset hphi
  refine ⟨hold, fun {s d} hs hav hd => ?_⟩
  -- The value stays as it is when control comes to the block of the phi.
  have hkept : ∀ {s t}, Connects E entry home → Frame.Entered f s t home xs →
      t.read g v = s.read g v := by
    intro s t hcon hent
    by_cases hres : ∃ ty j, f.flow.origin? v = some (.result ty j)
    · obtain ⟨ty', j, hv⟩ := hres
      apply Frame.read_congr rfl
      refine hent.kept v fun psi hpsi hpv => ?_
      have hpm : psi ∈ xs := (List.takeWhile_prefix _).subset hpsi
      have hpsi : j = psi := hf.coherent.flow.definer_eq hpv hv
      subst hpsi
      exact (hf.single_guards hhome hphi hr hcon hin' hv hhome hpm).1 rfl
    · apply Frame.read_congr rfl
      refine hent.kept v fun psi _ hpv => ?_
      obtain ⟨ty', hv, -⟩ := hf.coherent.flow.result_origin hpv
      exact hres ⟨ty', psi, hv⟩
  have hgo := hg ho
  refine hf.phi_induct (P := fun s => ∀ d, s.read g r = .ok d → s.read g v = .ok d) h₀ hhome
    hphi hr ?_ ?_ hs ((hf.coherent.avail_iff hr).1 hav) d hd
  · intro s t last hs hrest hlast hE ih hent d hd
    have hsits := hf.sits_reached (hf.sits_atStart h₀) hs
    obtain ⟨x, d', hx, hxav, hxd, hset⟩ := hent.merged_same hf h₀ hg hhome hphi hr hs hrest hlast hE
    rw [Frame.read_result hgo, hset] at hd
    cases hd
    rw [hkept (hsits.connects.step hE) hent]
    obtain ⟨y, hsame, hy⟩ := hin hsits.connects hE hx
    have hyd := hsame.read hs hxav hxd
    rcases hy with rfl | rfl
    · exact hyd
    · exact ih ((hf.coherent.avail_iff hr).1 (hsame.avail hsits.spot hxav)) d hyd
  · intro s t hs ih hkeep d hd
    rw [Frame.read_congr (f := g) rfl (hkeep r fun _ _ _ h => h)] at hd
    rw [Frame.read_congr (f := g) rfl (hkeep v hold)]
    exact ih d hd

theorem Same.of_twins (hf : f.Orderly E entry) (h₀ : f.AtStart entry s₀)
    (hg : ∀ {v o}, f.flow.origin? v = some o → g.flow.origin? v = some o)
    {pre post : List InstId} (hhome : f.insts home = .ok (pre ++ phi :: post)) (hpsi : psi ∈ pre)
    (hphi : phi ∈ (pre ++ phi :: post).takeWhile f.flow.isPhi)
    (hpsi' : psi ∈ (pre ++ phi :: post).takeWhile f.flow.isPhi)
    (hr : f.flow.result? phi = some r) (hq : f.flow.result? psi = some q)
    (hin : ∀ {p x y}, Connects E entry p → E p home → f.flow.incoming? phi p = .ok (some x) →
      f.flow.incoming? psi p = .ok (some y) → ∃ z, Same f E entry s₀ g x z ∧
      Same f E entry s₀ g y z) : Same f E entry s₀ g r q := by
  obtain ⟨ty, ho, -⟩ := hf.coherent.flow.result_origin hr
  obtain ⟨ty', ho', -⟩ := hf.coherent.flow.result_origin hq
  have hold : f.Older E entry r q := hf.older_of_before hhome hpsi hr hq
  refine ⟨hold, fun {s d} hs hav hd => ?_⟩
  refine hf.phi_induct (P := fun s => ∀ d, s.read g r = .ok d → s.read g q = .ok d) h₀ hhome
    hphi hr ?_ ?_ hs ((hf.coherent.avail_iff hr).1 hav) d hd
  · intro s t last hs hrest hlast hE _ hent d hd
    obtain ⟨x, d₁, hx, hxav, hxd, hset⟩ := hent.merged_same hf h₀ hg hhome hphi hr hs hrest hlast hE
    obtain ⟨y, d₂, hy, hyav, hyd, hset'⟩ :=
      hent.merged_same hf h₀ hg hhome hpsi' hq hs hrest hlast hE
    rw [Frame.read_result (hg ho), hset] at hd
    cases hd
    have hcon := (hf.sits_reached (hf.sits_atStart h₀) hs).connects
    obtain ⟨z, hxz, hyz⟩ := hin hcon hE hx hy
    have hz := hxz.read hs hxav hxd
    rw [hyz.read hs hyav hyd] at hz
    cases hz
    exact (Frame.read_result (hg ho')).2 hset'
  · intro s t hs ih hkeep d hd
    rw [Frame.read_congr (f := g) rfl (hkeep r fun _ _ _ h => h)] at hd
    rw [Frame.read_congr (f := g) rfl (hkeep q hold)]
    exact ih d hd

end Same

end MiddleEnd
