import MiddleEnd.Proofs.ReadableFunctions
import MiddleEnd.Proofs.Verification

/-!
# What verification reports

Verification comes back from every function that can be read, however little sense it makes. The
shape is looked at first, and only if nothing is wrong with it are operands looked up and dominance
asked for: by then every operand is there and every edge leads to a block. Each error names the
function.
-/

namespace MiddleEnd

namespace Verify

variable {f : Func} {i : InstId} {inst : Inst}

def Reports (f : Func) (x : Checked (List Diagnostic)) : Prop :=
  ∃ ds, x = .ok ds ∧ ∀ d ∈ ds, d.unit? = some (unit f)

theorem Reports.nil : Reports f (.ok []) := ⟨[], rfl, by simp⟩

theorem Reports.append {x y : Checked (List Diagnostic)} (hx : Reports f x) (hy : Reports f y) :
    Reports f (do let a ← x; let b ← y; .ok (a ++ b)) := by
  obtain ⟨ds, rfl, hds⟩ := hx
  obtain ⟨es, rfl, hes⟩ := hy
  refine ⟨ds ++ es, rfl, fun d hd => ?_⟩
  rcases List.mem_append.1 hd with hd | hd
  · exact hds d hd
  · exact hes d hd

theorem mapM_reports {α : Type} {check : α → Checked (List Diagnostic)} {xs : List α}
    (h : ∀ x ∈ xs, Reports f (check x)) :
    ∃ dss, xs.mapM check = .ok dss ∧ ∀ d ∈ dss.flatten, d.unit? = some (unit f) := by
  obtain ⟨dss, hdss⟩ := mapM_exists fun x hx => (h x hx).imp fun _ hds => hds.1
  refine ⟨dss, hdss, fun d hd => ?_⟩
  obtain ⟨ds, hds, hd⟩ := List.mem_flatten.1 hd
  obtain ⟨n, hn⟩ := List.getElem?_of_mem hds
  obtain ⟨x, hx, hcheck⟩ := mapM_ok_getElem? hdss hn
  obtain ⟨ds', hds', hunit⟩ := h x (List.mem_of_getElem? hx)
  cases hds'.symm.trans hcheck
  exact hunit d hd

theorem Reports.flatten {α : Type} {check : α → Checked (List Diagnostic)} {xs : List α}
    (h : ∀ x ∈ xs, Reports f (check x)) :
    Reports f (do let dss ← xs.mapM check; .ok dss.flatten) := by
  obtain ⟨dss, hdss, hunit⟩ := mapM_reports h
  exact ⟨dss.flatten, by rw [hdss, ok_bind], hunit⟩

theorem instText_ok (h : f.Readable) (hi : f.flow.inst? i = some inst) :
    ∃ s, f.instText i = .ok s := by
  refine Func.instText_of_known hi (h.legible hi).callee fun hr => ?_
  obtain ⟨ty, ho⟩ := h.flow.result_origin hr
  exact ⟨_, ho⟩

theorem instError_ok (h : f.Readable) (hi : f.flow.inst? i = some inst) (message : String) :
    ∃ d, instError f i message = .ok d ∧ d.unit? = some (unit f) := by
  obtain ⟨s, hs⟩ := instText_ok h hi
  refine ⟨⟨some (unit f), some s, message⟩, ?_, rfl⟩
  unfold instError
  rw [hs, ok_bind]

theorem instErrorIf_reports (h : f.Readable) (hi : f.flow.inst? i = some inst) (bad : Bool)
    (message : String) :
    Reports f (instErrorIf f i bad message) := by
  unfold instErrorIf
  cases bad with
  | false => exact .nil
  | true =>
    obtain ⟨d, hd, hunit⟩ := instError_ok h hi message
    refine ⟨[d], ?_, fun e he => ?_⟩
    · rw [if_pos rfl, hd, ok_bind]
    · rw [List.mem_singleton.1 he]
      exact hunit

theorem phiEdges_reports (h : f.Readable) (hi : f.flow.inst? i = some inst) (b : BlockId) :
    Reports f (phiEdges f b i inst) :=
  .append (instErrorIf_reports h hi _ _) (instErrorIf_reports h hi _ _)

theorem instShape_reports (h : f.Readable) (hi : f.flow.inst? i = some inst) (b : BlockId)
    (last : InstId) (afterPhis : Bool) : Reports f (instShape f b last afterPhis i) := by
  have hearly := instErrorIf_reports h hi (inst.op.isTerminator && i ≠ last)
    s!"terminator must be at the end of block {f.blockText b}"
  have hlate := instErrorIf_reports h hi afterPhis
    s!"phi must be at the head of block {f.blockText b}"
  unfold instShape
  rw [DataFlow.inst_eq_ok.2 hi, ok_bind]
  cases inst.op.isPhi with
  | false =>
    obtain ⟨ds, hds, hunit⟩ := hearly
    refine ⟨ds, ?_, hunit⟩
    simp only [hds, ok_bind, Bool.not_false, if_true, pure_eq_ok]
  | true =>
    obtain ⟨ds, hds, hunit⟩ := (hearly.append hlate).append (phiEdges_reports h hi b)
    refine ⟨ds, ?_, hunit⟩
    rw [← hds]
    simp only [bind_assoc, pure_eq_ok, ok_bind, Bool.not_true, Bool.false_eq_true, if_false]

theorem instShapes_reports (h : f.Readable) (b : BlockId) (last : InstId) (afterPhis : Bool)
    {xs : List InstId} (hxs : ∀ i ∈ xs, ∃ inst, f.flow.inst? i = some inst) :
    Reports f (instShapes f b last afterPhis xs) := by
  induction xs generalizing afterPhis with
  | nil => exact .nil
  | cons i xs ih =>
    obtain ⟨inst, hi⟩ := hxs i List.mem_cons_self
    exact .append (instShape_reports h hi b last afterPhis) (ih _ fun j hj =>
      hxs j (List.mem_cons_of_mem _ hj))

theorem inst_of_row (h : f.Readable) {row : Row} (hrow : row ∈ f.layout.rows) :
    ∀ i ∈ row.insts, ∃ inst, f.flow.inst? i = some inst := fun i hi =>
  (h.arranged.placed i).1 (List.mem_flatMap.2 ⟨row, hrow, hi⟩)

theorem blockShape_reports (h : f.Readable) {row : Row} (hrow : row ∈ f.layout.rows) :
    Reports f (blockShape f row) := by
  unfold blockShape
  cases hlast : row.insts.getLast? with
  | none =>
    refine ⟨_, rfl, fun d hd => ?_⟩
    rw [List.mem_singleton.1 hd]
    rfl
  | some last =>
    obtain ⟨ds, hds, hunit⟩ := instShapes_reports h row.block last false (inst_of_row h hrow)
    obtain ⟨inst, hi⟩ := inst_of_row h hrow last (List.mem_of_getLast? hlast)
    obtain ⟨s, hs⟩ := instText_ok h hi
    simp only [hds, ok_bind, hs]
    split
    · exact ⟨ds, rfl, hunit⟩
    · refine ⟨_, rfl, fun d hd => ?_⟩
      rcases List.mem_append.1 hd with hd | hd
      · exact hunit d hd
      · rw [List.mem_singleton.1 hd]
        rfl

theorem operandsDefined_reports (h : f.Readable) (hi : f.flow.inst? i = some inst) :
    Reports f (operandsDefined f i) := by
  unfold operandsDefined
  rw [DataFlow.inst_eq_ok.2 hi, ok_bind]
  obtain ⟨values, hvalues, hunit⟩ := mapM_reports fun (v : ValueId) (_ : v ∈ inst.args) =>
    instErrorIf_reports h hi _ s!"value {v} has no definition"
  obtain ⟨blocks, hblocks, hunit'⟩ := mapM_reports fun (b : BlockId) (_ : b ∈ inst.blocks) =>
    instErrorIf_reports h hi (!f.layout.hasBlock b) s!"block {b} has no definition"
  refine ⟨values.flatten ++ blocks.flatten, ?_, fun d hd => ?_⟩
  · rw [hvalues, ok_bind, hblocks, ok_bind]
  · rcases List.mem_append.1 hd with hd | hd
    · exact hunit d hd
    · exact hunit' d hd

theorem shape_reports (h : f.Readable) : Reports f (shape f) := by
  obtain ⟨blocks, hblocks, hunit⟩ := mapM_reports fun (row : Row) hrow => blockShape_reports h hrow
  have hoperands : ∀ i ∈ f.allInsts, Reports f (operandsDefined f i) := fun i hi => by
    obtain ⟨inst, hinst⟩ := (h.arranged.placed i).1 hi
    exact operandsDefined_reports h hinst
  obtain ⟨operands, hoperands, hunit'⟩ := mapM_reports hoperands
  refine ⟨blocks.flatten ++ operands.flatten, ?_, fun d hd => ?_⟩
  · unfold shape
    rw [hblocks, ok_bind, hoperands, ok_bind]
  · rcases List.mem_append.1 hd with hd | hd
    · exact hunit d hd
    · exact hunit' d hd

def Defined (f : Func) : Prop :=
  ∀ {i inst v}, f.flow.inst? i = some inst → v ∈ inst.args → ∃ o, f.flow.origin? v = some o

theorem Defined.ty_ok (hd : Defined f) (hi : f.flow.inst? i = some inst) {v : ValueId}
    (hv : v ∈ inst.args) :
    f.flow.ty v = .ok (f.tyOf v) := by
  obtain ⟨o, ho⟩ := hd hi hv
  rw [DataFlow.ty_of_origin ho, Func.tyOf_eq ho]

theorem resultTy_ok (h : f.Readable) (i : InstId) : resultTy f i = .ok (f.yieldTy i) := by
  unfold resultTy Func.yieldTy
  cases hr : f.flow.result? i with
  | none => rfl
  | some v =>
    obtain ⟨ty, ho⟩ := h.flow.result_origin hr
    simp only [DataFlow.ty_of_origin ho, Option.map_some, Option.getD_some, Func.tyOf_eq ho]

theorem argTy_reports (h : f.Readable) (hd : Defined f) (hi : f.flow.inst? i = some inst)
    (ty : Ty) {v : ValueId} (hv : v ∈ inst.args) : Reports f (argTy f i ty v) := by
  unfold argTy
  rw [hd.ty_ok hi hv, ok_bind]
  exact instErrorIf_reports h hi _ _

theorem argTys_reports (h : f.Readable) (hd : Defined f)
    (hi : f.flow.inst? i = some inst) (ty : Ty) :
    Reports f (argTys f i inst ty) :=
  .flatten fun _ hv => argTy_reports h hd hi ty hv

theorem argTysAgree_reports (h : f.Readable) (hd : Defined f) (hi : f.flow.inst? i = some inst) :
    Reports f (argTysAgree f i inst) := by
  unfold argTysAgree
  rw [mapM_of_forall fun v hv => hd.ty_ok hi hv, ok_bind]
  exact instErrorIf_reports h hi _ _

theorem callArgs_reports (h : f.Readable) (hd : Defined f) (hi : f.flow.inst? i = some inst)
    (sig : Signature) :
    Reports f (callArgs f i sig inst.args) := by
  unfold callArgs
  split
  · exact instErrorIf_reports h hi true _
  · exact .flatten fun p hp => argTy_reports h hd hi p.1 (List.of_mem_zip hp).2

theorem instTypes_reports (h : f.Readable) (hd : Defined f) (hi : f.flow.inst? i = some inst) :
    Reports f (instTypes f i) := by
  have hif := instErrorIf_reports h hi
  have hlegible := h.legible hi
  have hr := resultTy_ok h i
  unfold instTypes
  rw [DataFlow.inst_eq_ok.2 hi, ok_bind]
  simp only [hlegible.form, Bool.not_true, Bool.false_eq_true, if_false]
  cases inst with
  | nullary op =>
    cases op with
    | alloca =>
      simp only [hr, ok_bind]
      exact hif _ _
    | _ => exact hif _ _
  | unary op x =>
    have hx := hd.ty_ok hi (v := x) (by simp [Inst.args])
    simp only [hr, hx, ok_bind]
    split
    · exact hif _ _
    · split
      · exact hif _ _
      · split
        · exact hif _ _
        · exact .append (hif _ _) (argTys_reports h hd hi _)
  | binary op x y =>
    have hx := hd.ty_ok hi (v := x) (by simp [Inst.args])
    have hy := hd.ty_ok hi (v := y) (by simp [Inst.args])
    simp only [hr, hx, hy, ok_bind]
    split
    · exact hif _ _
    · split
      · exact .append (hif _ _) (argTysAgree_reports h hd hi)
      · split
        · exact .append (argTysAgree_reports h hd hi) (hif _ _)
        · exact .append (hif _ _) (argTys_reports h hd hi _)
  | phi op args preds =>
    simp only [hr, ok_bind]
    exact argTys_reports h hd hi _
  | jump op b => exact .nil
  | branch op c t e => exact argTys_reports h hd hi _
  | call op callee args =>
    obtain ⟨target, ht⟩ := hlegible.callee rfl
    simp only [Table.get, ht, ofOption_some, ok_bind]
    exact callArgs_reports h hd hi target.sig

theorem useDominated_returns (h : f.Readable) (t : DominatorTree) {v : ValueId}
    (hv : f.flow.result? i = some v) {user : InstId} {unst : Inst}
    (hu : f.flow.inst? user = some unst) : ∃ ok, useDominated f t i v user = .ok ok := by
  obtain ⟨ty, ho⟩ := h.flow.result_origin hv
  unfold useDominated
  rw [DataFlow.inst_eq_ok.2 hu, ok_bind]
  split
  · refine ⟨_, allM_of_forall (q := fun p => t.instDominatesBlock f i p.2) fun p _ => ?_⟩
    show t.valueDominatesBlock f v p.2 = _
    unfold DominatorTree.valueDominatesBlock
    rw [DataFlow.origin_eq_ok.2 ho, ok_bind]
  · exact ⟨_, rfl⟩

theorem usesDominated_reports (h : f.Readable) (t : DominatorTree)
    (hi : f.flow.inst? i = some inst) {v : ValueId} (hv : f.flow.result? i = some v) :
    Reports f (usesDominated f t i v) := by
  obtain ⟨ty, ho⟩ := h.flow.result_origin hv
  obtain ⟨us, hus, -⟩ := DataFlow.users_ok ho
  unfold usesDominated
  rw [hus, ok_bind]
  refine .flatten fun user huser => ?_
  -- users that are gone are not looked at
  have hplaced : ∃ b, f.layout.blockOf? user = some b := by
    obtain ⟨-, hreach⟩ := List.mem_filter.1 huser
    obtain ⟨b, hb, -⟩ := (Option.any_eq_true _ _).1 hreach
    exact ⟨b, hb⟩
  obtain ⟨unst, hu⟩ := (h.arranged.placed user).1 (h.arranged.layout.mem_allInsts.2 hplaced)
  obtain ⟨ok, hok⟩ := useDominated_returns h t hv hu
  obtain ⟨s, hs⟩ := instText_ok h hu
  obtain ⟨d, hd, hunit⟩ := instError_ok h hi ("does not dominate use in `" ++ s ++ "`")
  simp only [hok, hs, hd, ok_bind, pure_eq_ok]
  split
  · exact .nil
  · refine ⟨[d], rfl, fun e he => ?_⟩
    rw [List.mem_singleton.1 he]
    exact hunit

theorem instBody_reports (h : f.Readable) (hd : Defined f) (t : DominatorTree) (b : BlockId)
    (hi : f.flow.inst? i = some inst) : Reports f (instBody f t b i) := by
  have htypes := instTypes_reports h hd hi
  have halone : Reports f (instTypes f i >>= pure) := by
    rw [bind_pure]
    exact htypes
  unfold instBody
  cases hr : f.flow.result? i with
  | none => exact halone
  | some v =>
    simp only
    split
    · exact htypes.append (usesDominated_reports h t hi hr)
    · exact halone

theorem body_reports (h : f.Readable) (hd : Defined f) (t : DominatorTree) :
    Reports f (body f t) := by
  have hrow : ∀ row ∈ f.layout.rows, ∃ dss, row.insts.mapM (instBody f t row.block) = .ok dss ∧
      ∀ d ∈ dss.flatten, d.unit? = some (unit f) := fun row hrow => mapM_reports fun i hi => by
    obtain ⟨inst, hinst⟩ := inst_of_row h hrow i hi
    exact instBody_reports h hd t row.block hinst
  obtain ⟨dsss, hdsss⟩ := mapM_exists fun row hr => (hrow row hr).imp fun _ h => h.1
  refine ⟨dsss.flatten.flatten, ?_, fun d hd => ?_⟩
  · unfold body
    rw [hdsss]
    rfl
  · obtain ⟨ds, hds, hd⟩ := List.mem_flatten.1 hd
    obtain ⟨dss, hdss, hds⟩ := List.mem_flatten.1 hds
    obtain ⟨n, hn⟩ := List.getElem?_of_mem hdss
    obtain ⟨row, hr, hbody⟩ := mapM_ok_getElem? hdsss hn
    obtain ⟨dss', hdss', hunit⟩ := hrow row (List.mem_of_getElem? hr)
    cases hdss'.symm.trans hbody
    exact hunit d (List.mem_flatten.2 ⟨ds, hds, hd⟩)

end Verify

namespace Func

variable {f : Func}

/-- Some block does not end in its only terminator, or some phi does not name the predecessors of
its block once each, or some instruction names a block that is not placed. -/
def Misshapen (f : Func) : Prop :=
  (∃ c xs, f.insts c = .ok xs ∧ ¬ ∃ front t, xs = front ++ [t] ∧ f.flow.isTerminator t = true ∧
    ∀ i ∈ front, f.flow.isTerminator i = false) ∨
  (∃ c xs i inst, f.insts c = .ok xs ∧ i ∈ xs ∧ f.flow.inst? i = some inst ∧ inst.op.isPhi = true ∧
    ¬ (inst.blocks.Nodup ∧ ∀ p, p ∈ inst.blocks ↔ f.Leads p c)) ∨
  ∃ i inst c, i ∈ f.allInsts ∧ f.flow.inst? i = some inst ∧ c ∈ inst.blocks ∧ c ∉ f.blocks

theorem Readable.passes (h : f.Readable) (hs : Verify.shape f = .ok []) :
    ¬ f.Misshapen ∧ f.Closed ∧ Verify.Defined f := by
  obtain ⟨hblocks, hoperands⟩ := Verify.shape_split.1 hs
  obtain ⟨hended, hphis⟩ := Verify.ended_of_shape h.arranged hblocks
  have hsound : ∀ {i inst}, f.flow.inst? i = some inst →
      (∀ v ∈ inst.args, ∃ o, f.flow.origin? v = some o) ∧
      ∀ b ∈ inst.blocks, b ∈ f.blocks := fun {i inst} hi =>
    Verify.operandsDefined_sound hi (hoperands i ((h.arranged.placed i).2 ⟨inst, hi⟩))
  refine ⟨?_, fun a _ b hl => ?_, fun hi hv => (hsound hi).1 _ hv⟩
  · rintro (⟨c, xs, hxs, hn⟩ | ⟨c, xs, i, inst, hxs, hi, hinst, hphi, hn⟩ | ⟨i, inst, c,
      -, hi, hc, hn⟩)
    · exact hn (hended hxs)
    · obtain ⟨hnodup, hmem⟩ := Verify.phiEdges_eq_nil.1 ((hphis hxs).2 i hi inst hinst hphi)
      exact hn ⟨hnodup, fun p =>
        (hmem p).trans (mem_predecessors_of h.arranged.layout h.flow.blockUsers_iff
        (Ended.endsLast hended))⟩
    · exact hn ((hsound hi).2 c hc)
  · obtain ⟨_, _, _, -, -, hi, -, hb⟩ := leads_iff.1 hl
    exact (hsound hi).2 b hb

/-- Verification of a function that can be read comes back with errors that name the function, and
with at least one if the function is misshapen. -/
theorem Readable.diagnosed (h : f.Readable) :
    ∃ ds, f.errors = .ok ds ∧ (∀ d ∈ ds, d.unit? = some (Verify.unit f)) ∧
      (f.Misshapen → ds ≠ []) := by
  cases hempty : f.isEmpty with
  | true =>
    refine ⟨[Verify.noEntry f], ?_, fun d hd => ?_, fun _ => by simp⟩
    · unfold errors
      rw [hempty]
      rfl
    · rw [List.mem_singleton.1 hd]
      rfl
  | false =>
    obtain ⟨shape, hshape, hunit⟩ := Verify.shape_reports h
    cases shape with
    | cons d ds =>
      refine ⟨d :: ds, ?_, hunit, fun _ => by simp⟩
      unfold errors
      rw [hempty, hshape]
      rfl
    | nil =>
      obtain ⟨hgood, hclosed, hdefined⟩ := h.passes hshape
      obtain ⟨entry, hentry⟩ := exists_entry hempty
      obtain ⟨t, ht, -⟩ := DominatorTree.ofFunc_ok hentry hclosed h.arranged.bound
      obtain ⟨ds, hds, hunit⟩ := Verify.body_reports h hdefined t
      refine ⟨ds, ?_, hunit, fun hbad => absurd hbad hgood⟩
      unfold errors
      rw [hempty, hshape]
      simp only [Bool.false_eq_true, if_false, ok_bind, List.isEmpty_nil, if_true, ht, hds]

theorem verify_yields {ds : List Diagnostic} (h : f.errors = .ok ds) :
    f.verify.Yields (· = ds) := by
  unfold errors at h
  unfold verify
  cases hempty : f.isEmpty with
  | true =>
    rw [hempty] at h
    cases h
    exact Run.yields_pure rfl
  | false =>
    rw [hempty] at h
    simp only [Bool.false_eq_true, if_false] at h ⊢
    obtain ⟨shape, hshape, h⟩ := bind_eq_ok.1 h
    rw [hshape, Run.lift_ok_bind]
    cases shape with
    | cons d rest =>
      cases h
      exact Run.yields_pure rfl
    | nil =>
      simp only [List.isEmpty_nil, if_true] at h ⊢
      obtain ⟨t, ht, h⟩ := bind_eq_ok.1 h
      refine (dominators_yield ht).bind ?_
      rintro _ rfl
      exact Run.yields_lift ⟨ds, h, rfl⟩

end Func

namespace Builder

/-- Whatever was done to a function since it was empty, verification comes back. -/
theorem history_diagnosed {name : String} {sig : Signature} {b : Builder}
    (h : History Action.Legible { func := .new name sig } b) :
    ∃ ds, b.func.errors = .ok ds ∧ b.func.verify.Yields (· = ds) ∧
      (∀ d ∈ ds, d.unit? = some ("func @" ++ name)) ∧ (b.func.Misshapen → ds ≠ []) := by
  have hbuilt := h.rebuilds (Func.new_readable name sig)
  have hname : b.func.name = name := hbuilt.name
  obtain ⟨ds, hds, hunit, hbad⟩ := hbuilt.readable.diagnosed
  refine ⟨ds, hds, Func.verify_yields hds, fun d hd => ?_, hbad⟩
  rw [hunit d hd, Verify.unit, hname]

/-- Code behind a terminator, a phi with more values than blocks and behind other code, a branch to
a block that was removed, an empty block, a store into something that is no slot. -/
def crooked : List Action :=
  [.block (some "entry"), .block (some "loop"), .block (some "gone"), .block none,
    .goTo (.append ⟨0⟩), .build none (.store ⟨0⟩ ⟨0⟩), .build none (.br ⟨1⟩),
    .build (some "x") (.binary .add ⟨0⟩ ⟨0⟩), .goTo (.append ⟨2⟩), .build none .ret,
    .removeBlock ⟨2⟩, .goTo (.append ⟨1⟩), .build none (.copy ⟨0⟩ ⟨1⟩),
    .insert (.phi .phi [⟨0⟩, ⟨1⟩] [⟨0⟩]) (.int 1), .edit (.addIncoming ⟨5⟩ ⟨2⟩ ⟨1⟩),
    .build none (.br ⟨2⟩)]

theorem crooked_diagnosed :
    ∃ b ds, Action.run Action.Legible { func := .new "f" ⟨[.int 1], none⟩ } crooked = some b ∧
      b.func.errors = .ok ds ∧ ds.length = 6 ∧ (∀ d ∈ ds, d.unit? = some "func @f") ∧
      b.func.Misshapen ∧ ds ≠ [] := by
  have hrun : (Action.run Action.Legible { func := .new "f" ⟨[.int 1], none⟩ }
      crooked).any (fun b =>
      b.func.errors.toOption.any (·.length = 6) && ⟨6⟩ ∈ b.func.allInsts &&
        b.func.flow.inst? ⟨6⟩ = some (.jump .br ⟨2⟩) && ⟨2⟩ ∉ b.func.blocks) = true := by
        decide +kernel
  obtain ⟨b, hb, hcheck⟩ := (Option.any_eq_true _ _).1 hrun
  simp only [Bool.and_eq_true, decide_eq_true_eq] at hcheck
  obtain ⟨⟨⟨herrors, hplaced⟩, hinst⟩, hgone⟩ := hcheck
  have hbad : b.func.Misshapen :=
    .inr (.inr ⟨⟨6⟩, _, ⟨2⟩, hplaced, hinst, List.mem_singleton.2 rfl, hgone⟩)
  obtain ⟨ds, hds, -, hunit, hsome⟩ := history_diagnosed (Action.run_history hb)
  obtain ⟨ds', hds', hlength⟩ := exists_of_any herrors
  cases hds.symm.trans hds'
  exact ⟨b, ds, hb, hds, of_decide_eq_true hlength, hunit, hbad, hsome hbad⟩

def misfit : List Action :=
  [.block none, .goTo (.append ⟨0⟩), .insert (.nullary .add) .void, .build none .ret]

def undeclared : List Action :=
  [.block none, .goTo (.append ⟨0⟩), .insert (.call .call ⟨0⟩ []) .void, .build none .ret]

/-- Without a word on instructions that come whole, verification need not come back. -/
theorem misfit_not_diagnosed :
    (∃ b, History Action.Offered { func := .new "f" ⟨[], none⟩ } b ∧
      b.func.errors = .error (.wrongForm (.nullary .add))) ∧
      ∃ b, History Action.Offered { func := .new "f" ⟨[], none⟩ } b ∧
        b.func.errors = .error .keyAbsent := by
  have hmisfit : (Action.run Action.Offered { func := .new "f" ⟨[], none⟩ } misfit).any
      (fun b => b.func.errors = .error (.wrongForm (.nullary .add))) = true := by decide +kernel
  have hundeclared : (Action.run Action.Offered { func := .new "f" ⟨[], none⟩ } undeclared).any
      (fun b => b.func.errors = .error .keyAbsent) = true := by decide +kernel
  obtain ⟨b, hb, herror⟩ := (Option.any_eq_true _ _).1 hmisfit
  obtain ⟨c, hc, herror'⟩ := (Option.any_eq_true _ _).1 hundeclared
  exact ⟨⟨b, Action.run_history hb, of_decide_eq_true herror⟩, c, Action.run_history hc,
    of_decide_eq_true herror'⟩

end Builder

end MiddleEnd
