import MiddleEnd.Proofs.BlockMerging
import MiddleEnd.Proofs.Building
import MiddleEnd.Proofs.SimplifiedFlow

/-!
# Simplification of control flow

Every step keeps the function tidy and keeps what it returns, and a step that changes something
leaves fewer blocks or less to run. So the steps come to an end, at a function that verifies and
returns what the first one returned.
-/

namespace MiddleEnd

namespace FlowSimplification

variable {b b' : Builder} {entry : BlockId}

theorem step_yields (ht : b.func.Neat entry) : (step b).Yields fun r => b.Eased r.2 entry r.1 := by
  unfold step
  refine (foldBranches_yields ht).bind fun r₁ h₁ => ?_
  obtain ⟨folded, b₁⟩ := r₁
  refine (removeUnreachable_yields h₁.neat).bind fun r₂ h₂ => ?_
  obtain ⟨removed, b₂⟩ := r₂
  obtain ⟨h₂, hreached⟩ := h₂
  have htrim : b₂.func.Trim entry := ⟨h₂.neat, hreached⟩
  refine (simplifyPhis_yields htrim).bind fun r₃ h₃ => ?_
  obtain ⟨simplified, b₃⟩ := r₃
  obtain ⟨h₃, htrim₃⟩ := h₃
  refine (mergeBlocks_yields htrim₃).bind fun r₄ h₄ => ?_
  obtain ⟨merged, b₄⟩ := r₄
  exact Run.yields_pure (((h₁.trans h₂).trans h₃).trans h₄)

/-- Every round that changes something makes the function smaller, so that the rounds come to an
end: at a function that another round leaves as it is. -/
theorem repeatWithin_ok {fuel : Nat} {modified : Bool} (h : b.Eased b' entry modified)
    (hfuel : b'.func.extent < fuel) :
    ∃ m c, (repeatWithin fuel modified b').outcome = .ok (m, c) ∧ b.Eased c entry m ∧
      (step c).outcome = .ok (false, c) := by
  induction fuel generalizing modified b' with
  | zero => omega
  | succ fuel ih =>
    unfold repeatWithin
    obtain ⟨⟨changed, c⟩, hstep, hc, hnext⟩ := (step_yields h.neat).outcome_bind
    rw [hnext]
    cases changed with
    | true =>
      have hless : c.func.extent + 1 ≤ b'.func.extent := hc.extent
      exact ih (h.step hc) (by omega)
    | false =>
      obtain rfl : c = b' := hc.same rfl
      exact ⟨modified, c, rfl, h, hstep⟩

theorem run_outcome (hb : b.func.entry = .ok entry) :
    (run b).outcome = (repeatWithin (b.func.blocks.length + 2 * b.flow.insts.size + 1) false
      b).outcome := by
  unfold run Run.info
  rw [Run.outcome_log_bind, Func.isEmpty_of_entry hb, if_neg Bool.false_ne_true]

theorem run_ok (hb : b.func.Neat entry) :
    ∃ m c, (run b).outcome = .ok (m, c) ∧ b.Eased c entry m ∧ (step c).outcome = .ok
      (false, c) := by
  rw [run_outcome hb.starts]
  refine repeatWithin_ok (.refl hb) ?_
  have hweight := b.flow.weight_le
  unfold Func.extent
  show b.func.blocks.length + b.flow.weight < _
  omega

theorem run_again (hb : b.func.Neat entry) (hs : (step b).outcome = .ok (false, b)) :
    (run b).outcome = .ok (false, b) := by
  obtain ⟨r, hr, -, hnext⟩ := (step_yields hb).outcome_bind
  rw [hs] at hr
  cases hr
  rw [run_outcome hb.starts]
  unfold repeatWithin
  rw [hnext]
  rfl

/-- All blocks are reached, all branches are taken either way, all phis merge different values, and
no block just continues another one. -/
structure Simplified (f : Func) (entry : BlockId) : Prop where
  reached : ∀ b ∈ f.blocks, f.Reachable b
  forked : ∀ {i c onTrue onFalse}, f.flow.inst? i = some (.branch .brCond c onTrue onFalse) →
    onTrue ≠ onFalse ∧ ∀ w, f.flow.origin? c ≠ some (.const w)
  merging : ∀ {i inst}, f.flow.inst? i = some inst → inst.op = .phi →
    ∃ r, f.flow.result? i = some r ∧
    ∃ v ∈ inst.args, ∃ w ∈ inst.args, v ≠ w ∧ v ≠ r ∧ w ≠ r
  apart : ∀ {b p front term}, b ∈ f.blocks → b ≠ entry →
    (∀ q, q ∈ f.predecessors b ↔ q = p) → p ≠ b →
    f.insts p = .ok (front ++ [term]) → f.flow.inst? term ≠ some (.jump .br b)

theorem merged_two {r : ValueId} {args : List ValueId} {g : DataFlow}
    (h : TrivialPhi.substitute? g r args = .ok none) :
    ∃ v ∈ args, ∃ w ∈ args, v ≠ w ∧ v ≠ r ∧ w ≠ r := by
  unfold TrivialPhi.substitute? TrivialPhi.merged at h
  split at h
  · obtain ⟨ty, -, h⟩ := bind_eq_ok.1 h
    cases h
  · cases h
  · rename_i hnil hone
    obtain ⟨v, hv, w, hw, hne⟩ := exists_ne_of_eraseDups hnil hone
    simp only [List.mem_filter, decide_eq_true_eq] at hv hw
    exact ⟨v, hv.1, w, hw.1, hne, hv.2, hw.2⟩

theorem mergeTarget?_some {f : Func} {block pred : BlockId} {front : List InstId} {term : InstId}
    (hblock : block ∈ f.blocks) (hpred : ∀ q, f.Leads q block ↔ q = pred) (hne : pred ≠ block)
    (hxs : f.insts pred = .ok (front ++ [term])) (hi : f.flow.inst? term = some (.jump .br block)) :
    mergeTarget? f block = .ok (some (pred, term)) := by
  obtain ⟨e, he, hsnap⟩ := Edges.ofFunc_ok f
  obtain ⟨ps, hps, hmem⟩ := hsnap.preds block hblock
  have hone : ps = [pred] :=
    List.perm_singleton.1 <| (List.perm_ext_iff_of_nodup (hsnap.distinct hps) (by simp)).2 fun q =>
      by
      rw [hmem, hpred, List.mem_singleton]
  have hsucc : e.isSoleSucc block pred = .ok true := by
    unfold Edges.isSoleSucc
    rw [hsnap.succs pred ((hpred pred).2 rfl).mem_blocks, Func.successors_last hxs hi rfl, ok_bind]
    simp [Inst.blocks, List.eraseDups_cons]
  unfold mergeTarget?
  rw [he, ok_bind, hps, ok_bind, hone]
  dsimp only
  rw [if_neg hne, hsucc, ok_bind, Func.terminator?_last hxs (DataFlow.isTerminator_of_inst hi)]
  simp [DataFlow.op?_eq_some hi, Inst.op]

theorem Settled.simplified (h : Settled b) (hb : b.func.Neat entry) : Simplified b.func entry where
  reached c hc := by
    obtain ⟨dead, hdead, -, hmem⟩ := unreachable_ok hb.starts hb.shape.closed
    rw [h.reached] at hdead
    cases hdead
    refine (Func.reachable_iff hb.starts).2 (Classical.byContradiction fun hn => ?_)
    exact List.not_mem_nil ((hmem c).2 ⟨hc, hn⟩)
  forked {i c onTrue onFalse} hi := by
    obtain ⟨home, xs, hxs, hmem⟩ := hb.coherent.home hi
    obtain ⟨front, rest, rfl⟩ := List.append_of_mem hmem
    have hterm : b.func.flow.isTerminator i = true := DataFlow.isTerminator_of_inst hi
    obtain rfl := (hb.terminator_iff hxs).1 hterm
    have hnone := h.undecided home (Layout.mem_blocks_iff.2 ⟨_, hxs⟩)
      (Func.terminator?_last hxs hterm) (DataFlow.inst_eq_ok.2 hi) rfl
    rw [show decided? b.flow (.branch .brCond c onTrue onFalse) = if onTrue =
      onFalse then .ok (some (onTrue, none)) else _ from rfl] at hnone
    split at hnone
    · cases hnone
    · rename_i hne
      refine ⟨hne, fun w hw => ?_⟩
      unfold DataFlow.const? at hnone
      rw [show b.flow.origin c = _ from DataFlow.origin_eq_ok.2 hw, ok_bind, ok_bind] at hnone
      cases hnone
  merging {i inst} hi hop := by
    obtain ⟨home, xs, hxs, hmem⟩ := hb.coherent.home hi
    have hphi : b.func.flow.isPhi i = true := by
      rw [DataFlow.isPhi_of_inst hi, hop]
      rfl
    obtain ⟨row, hrow, rfl⟩ := Layout.insts_eq_ok.1 hxs
    have hall : i ∈ b.func.allPhis :=
      List.mem_flatMap.2 ⟨row, Layout.row?_mem hrow, hb.shape.mem_phis hxs hmem hphi⟩
    obtain ⟨r, inst', hr, hi', hs⟩ := h.merging i hall (DataFlow.hasInst_iff.2 ⟨inst, hi⟩)
    rw [DataFlow.inst_eq_ok, show b.flow.inst? i = some inst from hi] at hi'
    cases hi'
    exact ⟨r, DataFlow.result_eq_ok.1 hr, merged_two hs⟩
  apart {c p front term} hc hne hpreds hp hxs hi := by
    have hnone := h.apart hb.starts c hc hne
    rw [mergeTarget?_some hc (fun q => ?_) hp hxs hi] at hnone
    · cases hnone
    · rw [← Func.mem_predecessors hb.coherent hb.shape.ended, hpreds]

/-- Simplification goes through, its result verifies and still starts in a block that nothing leads
to, and it returns what the function returned. -/
theorem run_simplifies (h : b.func.Clean entry) (hsource : b.func.predecessors entry = [])
    (hphis : ∀ c phis, b.func.Reachable c → b.func.phis c = .ok phis →
      ∀ i ∈ phis, ∃ r, b.flow.result? i = some r)
    (hlast : ∀ i, b.flow.isTerminator i = true → b.flow.result? i = none) :
    ∃ modified b', (run b).outcome = .ok (modified, b') ∧ b'.func.errors = .ok [] ∧
      b'.func.entry = .ok entry ∧ b'.func.predecessors entry = [] ∧
      ∀ args d, b.func.Returns args d → b'.func.Returns args d := by
  have ht : b.func.Tidy entry := h.tidy hsource hphis hlast
  obtain ⟨modified, b', hrun, heased, -⟩ := run_ok ht.toNeat
  have hn := heased.neat
  refine ⟨modified, b', hrun, hn.verified, hn.starts, ?_, fun _ _ hd => heased.returns ht hd⟩
  refine List.eq_nil_iff_forall_not_mem.2 fun p hp => hn.source p ?_
  exact (Func.mem_predecessors hn.coherent hn.shape.ended).1 hp

def isSimplifiable (f : Func) : Bool :=
  f.isClean && (f.entry.toOption.any fun entry => (f.predecessors entry).isEmpty) && f.phisYield &&
    f.flow.insts.toList.all fun e => !f.flow.isTerminator e.1 || (f.flow.result? e.1).isNone

theorem simplifiable_of_isSimplifiable {f : Func} (hc : f.Coherent) (h : isSimplifiable f = true) :
    ∃ entry, f.Clean entry ∧ f.predecessors entry = [] ∧
      (∀ c phis, f.Reachable c → f.phis c = .ok phis → ∀ i ∈ phis, ∃ r, f.flow.result? i = some r) ∧
      ∀ i, f.flow.isTerminator i = true → f.flow.result? i = none := by
  unfold isSimplifiable at h
  simp only [Bool.and_eq_true] at h
  obtain ⟨⟨⟨hclean, hpreds⟩, hphis⟩, hlast⟩ := h
  obtain ⟨entry, hclean, hpreds⟩ := Func.clean_of_sourced hc hclean hpreds
  refine ⟨entry, hclean, hpreds, fun c phis _ hp => Func.result_of_phisYield hphis hp,
    fun i hi => ?_⟩
  obtain ⟨inst, hinst⟩ := DataFlow.inst_of_isTerminator hi
  obtain ⟨e, he, -⟩ := DataFlow.inst?_eq_some.1 hinst
  have hmute := List.all_eq_true.1 hlast (i, e) (Table.mem_toList.2 he)
  rw [hi] at hmute
  exact Option.isNone_iff_eq_none.1 (by simpa using hmute)

/-- A branch on a constant, the block it never goes to, and a phi where the two ways would meet. -/
def oneWay : Checked Builder :=
  Func.build "pick" ⟨[.int 32, .int 32], some (.int 32)⟩
    [.block (some "entry"), .block (some "left"), .block (some "right"), .block (some "join"),
    .const (.ofBool true),
      .goTo (.append ⟨0⟩), .insert (.branch .brCond ⟨2⟩ ⟨1⟩ ⟨2⟩) .void,
      .goTo (.append ⟨1⟩), .insert (.jump .br ⟨3⟩) .void,
      .goTo (.append ⟨2⟩), .insert (.jump .br ⟨3⟩) .void,
      .goTo (.append ⟨3⟩), .insert (.phi .phi [⟨0⟩, ⟨1⟩] [⟨1⟩, ⟨2⟩]) (.int 32),
      .insert (.unary .retValue ⟨3⟩) .void]

theorem oneWay_simplifies : ∃ b entry modified b', oneWay = .ok b ∧ (run b).outcome = .ok
    (modified, b') ∧ b'.func.errors = .ok [] ∧ b'.func.entry = .ok entry ∧
    b'.func.predecessors entry = [] ∧
    ∀ args d, b.func.Returns args d → b'.func.Returns args d := by
  obtain ⟨b, hb, h⟩ := exists_of_any (x := oneWay) (p := fun b => isSimplifiable b.func)
    (by decide +kernel)
  obtain ⟨entry, hclean, hpreds, hphis, hlast⟩ :=
    simplifiable_of_isSimplifiable (Func.build_coherent (by decide) hb) h
  obtain ⟨modified, b', hrun, hresult⟩ := run_simplifies hclean hpreds hphis hlast
  exact ⟨b, entry, modified, b', hb, hrun, hresult⟩

/-- A phi of type `void` merges nothing that could take its place. -/
def voidMerge : Checked Builder :=
  Func.build "f" ⟨[.int 1], some (.int 32)⟩
    [.block (some "entry"), .block (some "other"), .block (some "exit"), .undef .void,
      .const (.int32 7),
      .goTo (.append ⟨0⟩), .insert (.branch .brCond ⟨0⟩ ⟨2⟩ ⟨1⟩) .void,
      .goTo (.append ⟨1⟩), .insert (.phi .phi [⟨1⟩] [⟨0⟩]) .void, .insert (.jump .br ⟨2⟩) .void,
      .goTo (.append ⟨2⟩), .insert (.unary .retValue ⟨2⟩) .void]

/-- The function returns, but simplification ends in a fault. -/
theorem voidMerge_not_simplified : ∃ b entry e, voidMerge = .ok b ∧ b.func.Clean entry ∧
    b.func.predecessors entry = [] ∧
    b.func.Returns [.word (.ofBool true)] (.word ⟨32, 7, by decide, by decide⟩) ∧
    (run b).outcome = .error e := by
  obtain ⟨b, hb, h⟩ := exists_of_any (x := voidMerge) (p := fun b => b.func.isClean &&
    (b.func.entry.toOption.any fun entry => (b.func.predecessors entry).isEmpty) &&
    b.func.result? [.word (.ofBool true)] 3 = some (.word ⟨32, 7, by decide, by decide⟩) &&
    (run b).outcome.toOption.isNone) (by decide +kernel)
  simp only [Bool.and_eq_true] at h
  obtain ⟨⟨⟨hclean, hpreds⟩, hret⟩, hrun⟩ := h
  obtain ⟨entry, hc⟩ := Func.clean_of_isClean (Func.build_coherent (by decide) hb) hclean
  obtain ⟨entry', hentry, hpreds⟩ := exists_of_any hpreds
  rw [hc.starts] at hentry
  cases hentry
  cases ho : (run b).outcome with
  | ok r =>
    rw [ho] at hrun
    cases hrun
  | error e =>
    exact ⟨b, entry, e, hb, hc, List.isEmpty_iff.1 hpreds,
      Func.returns_of_result? (of_decide_eq_true hret), ho⟩

/-- Simplification of a verified function comes to an end, at a simplified function that another run
leaves as it is. -/
theorem run_normalizes (hc : b.func.Coherent) (hverified : b.func.errors = .ok [])
    (hstarts : b.func.entry = .ok entry) (hnone : b.func.phis entry = .ok [])
    (hsource : b.func.predecessors entry = [])
    (hphis : ∀ c phis, b.func.Reachable c → b.func.phis c = .ok phis →
      ∀ i ∈ phis, ∃ r, b.flow.result? i = some r)
    (hlast : ∀ i, b.flow.isTerminator i = true → b.flow.result? i = none) :
    ∃ modified b', (run b).outcome = .ok (modified, b') ∧ b'.func.entry = .ok entry ∧
      Simplified b'.func entry ∧ (run b').outcome = .ok (false, b') := by
  obtain ⟨entry', hvalid⟩ := (Func.errors_eq_nil_iff hc).1 hverified
  have he := hvalid.starts
  rw [hstarts] at he
  cases he
  have hneat := (hvalid.formed hc hnone).neat hvalid hsource hphis hlast
  obtain ⟨modified, b', hrun, heased, hstep⟩ := run_ok hneat
  obtain ⟨-, hsettled⟩ := (step_settles b').of_outcome hstep rfl
  exact ⟨modified, b', hrun, heased.neat.starts, hsettled.simplified heased.neat,
    run_again heased.neat hstep⟩

theorem oneWay_normalizes : ∃ b entry modified b', oneWay = .ok b ∧ (run b).outcome = .ok
    (modified, b') ∧ b'.func.entry = .ok entry ∧ Simplified b'.func entry ∧ (run b').outcome = .ok
      (false, b') := by
  obtain ⟨b, hb, h⟩ := exists_of_any (x := oneWay) (p := fun b => isSimplifiable b.func)
    (by decide +kernel)
  obtain ⟨entry, hclean, hpreds, hphis, hlast⟩ :=
    simplifiable_of_isSimplifiable (Func.build_coherent (by decide) hb) h
  obtain ⟨modified, b', hrun, hresult⟩ :=
    run_normalizes hclean.coherent hclean.verified hclean.starts hclean.noPhis hpreds hphis hlast
  exact ⟨b, entry, modified, b', hb, hrun, hresult⟩

/-- The function verifies, but no simplified function comes of it. -/
theorem voidMerge_not_normalized :
    ∃ b entry, voidMerge = .ok b ∧ b.func.Coherent ∧ b.func.errors = .ok [] ∧
      b.func.entry = .ok entry ∧ b.func.phis entry = .ok [] ∧ b.func.predecessors entry = [] ∧
    ∀ r, (run b).outcome ≠ .ok r := by
  obtain ⟨b, hb, h⟩ := exists_of_any (x := voidMerge) (p := fun b => b.func.isClean &&
    (b.func.entry.toOption.any fun entry => (b.func.predecessors entry).isEmpty) &&
    (run b).outcome.toOption.isNone) (by decide +kernel)
  simp only [Bool.and_eq_true] at h
  obtain ⟨⟨hclean, hpreds⟩, hrun⟩ := h
  obtain ⟨entry, hc⟩ := Func.clean_of_isClean (Func.build_coherent (by decide) hb) hclean
  obtain ⟨entry', hentry, hpreds⟩ := exists_of_any hpreds
  rw [hc.starts] at hentry
  cases hentry
  refine ⟨b, entry, hb, hc.coherent, hc.verified, hc.starts, hc.noPhis, List.isEmpty_iff.1 hpreds,
    fun r hr => ?_⟩
  rw [hr] at hrun
  cases hrun

end FlowSimplification

end MiddleEnd
