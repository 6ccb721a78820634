import MiddleEnd.Proofs.Building
import MiddleEnd.Proofs.Restatement

/-!
# Single assignment

In a function in static single assignment form every operand is defined on the way to its use, and a
phi has a value however control comes into its block. Verification asks for this along the edges of
the function and of what reachable blocks define. So a function without errors is in this form
unless it uses something that an unreachable block defines, or starts in a block with phis.
-/

namespace MiddleEnd

namespace Func

/-- The ways control comes into a block: at the start of the function, or from another block. -/
inductive Enters (f : Func) (b : BlockId) : Option BlockId → Prop
  | start (h : f.entry = .ok b) : Enters f b none
  | edge {p : BlockId} (h : f.Leads p b) : Enters f b (some p)

structure SingleAssignment (f : Func) : Prop where
  /-- An operand is defined further up in the block, or in a block on every path to it. -/
  operands : ∀ {b pre u post inst v ty i}, f.Reachable b → f.insts b = .ok (pre ++ u :: post) →
    f.flow.inst? u = some inst → inst.op.isPhi = false → v ∈ inst.args →
    f.flow.origin? v = some (.result ty i) →
    i ∈ pre ∨ ∃ home ys, f.insts home = .ok ys ∧ i ∈ ys ∧ f.StrictlyDominates home b
  /-- A phi takes from a block what is defined on every path to the end of that block. -/
  incoming : ∀ {b xs u inst v p ty i}, f.Reachable b → f.insts b = .ok xs → u ∈ xs →
    f.flow.inst? u = some inst →
    inst.op.isPhi = true → (v, p) ∈ inst.edges → f.Reachable p →
    f.flow.origin? v = some (.result ty i) →
    ∃ home ys, f.insts home = .ok ys ∧ i ∈ ys ∧ f.Dominates home p
  /-- A phi has a value for every way into its block. -/
  entered : ∀ {b xs u inst source?}, f.Reachable b → f.insts b = .ok xs → u ∈ xs →
    f.flow.inst? u = some inst →
    inst.op.isPhi = true → f.Enters b source? → ∃ p v, source? = some p ∧ (v, p) ∈ inst.edges

/-- Control may come to where the value is asked for: an instruction that has it as an operand, or,
for a phi, the end of the block the value comes from. -/
def Asked (f : Func) (v : ValueId) : Prop :=
  ∃ b xs u inst, f.Reachable b ∧ f.insts b = .ok xs ∧ u ∈ xs ∧ f.flow.inst? u = some inst ∧
    if inst.op.isPhi then ∃ p, (v, p) ∈ inst.edges ∧ f.Reachable p else v ∈ inst.args

/-- What is asked for is not defined in an unreachable block. -/
def AsksReached (f : Func) : Prop :=
  ∀ {v ty i home ys}, f.Asked v → f.flow.origin? v = some (.result ty i) →
    f.insts home = .ok ys → i ∈ ys →
    f.Reachable home

/-- The function does not start with phis. -/
def StartsBare (f : Func) : Prop :=
  ∀ {entry xs}, f.entry = .ok entry → f.insts entry = .ok xs → ∀ i ∈ xs, f.flow.isPhi i = false

variable {f : Func} {entry : BlockId}

theorem AsksReached.not_stranded (h : f.AsksReached) (he : f.entry = .ok entry) {v : ValueId}
    (hv : f.Asked v) :
    ¬ f.Stranded entry v := by
  rintro ⟨ty, i, home, ys, ho, hhome, hi, hun⟩
  exact hun ((reachable_iff he).1 (h hv ho hhome hi))

theorem Behind.splits (he : f.entry = .ok entry) {b : BlockId} {pre post : List InstId}
    {u i : InstId} (hb : f.insts b = .ok (pre ++ u :: post))
    (h : f.Behind f.Leads entry b (u :: post) i) :
    i ∈ pre ∨ ∃ home ys, f.insts home = .ok ys ∧ i ∈ ys ∧ f.StrictlyDominates home b := by
  obtain ⟨home, ys, hhome, hi, hg, hrest⟩ := h
  by_cases hne : home = b
  · subst hne
    cases hb.symm.trans hhome
    exact .inl ((List.mem_append.1 hi).resolve_right (hrest rfl))
  · exact .inr ⟨home, ys, hhome, hi, hne, (dominates_iff he).2 hg⟩

theorem Valid.singleAssignment (hv : f.Valid entry) (hc : f.Coherent) (hasks : f.AsksReached)
    (hbare : f.StartsBare) :
    f.SingleAssignment where
  operands := by
    intro b pre u post inst v ty i hr hb hu hphi hmem ho
    have hasked : f.Asked v := ⟨b, _, u, inst, hr, hb, by simp, hu, by rw [hphi]; exact hmem⟩
    rcases hv.dominated.body ((reachable_iff hv.starts).1 hr) hb hu hphi hmem with hav | hs
    · exact (hav ho).splits hv.starts hb
    · exact absurd hs (hasks.not_stranded hv.starts hasked)
  incoming := by
    intro b xs u inst v p ty i hr hb hu hinst hphi hmem hp ho
    have hasked : f.Asked v :=
      ⟨b, xs, u, inst, hr, hb, hu, hinst, by rw [if_pos hphi]; exact ⟨p, hmem, hp⟩⟩
    rcases hv.dominated.phis ((reachable_iff hv.starts).1 hr) hb hu hinst hphi hmem
      ((reachable_iff hv.starts).1 hp) with hav | hs
    · obtain ⟨home, ys, hhome, hi, hg, -⟩ := hav ho
      exact ⟨home, ys, hhome, hi, (dominates_iff hv.starts).2 hg⟩
    · exact absurd hs (hasks.not_stranded hv.starts hasked)
  entered := by
    intro b xs u inst source? hr hb hu hinst hphi hin
    cases hin with
    | start he =>
      have hplain := hbare he hb u hu
      rw [DataFlow.isPhi_of_inst hinst, hphi] at hplain
      cases hplain
    | @edge p hl =>
      obtain ⟨v, hedge⟩ := hv.shape.edge_of_leads hc hb hu hinst (hv.types hinst).1 hphi hl
      exact ⟨p, v, rfl, hedge⟩

theorem SingleAssignment.asksReached (h : f.SingleAssignment) (hc : f.Coherent) :
    f.AsksReached := by
  rintro v ty i home ys ⟨b, xs, u, inst, hr, hb, hu, hinst, hasked⟩ ho hhome hi
  cases hphi : inst.op.isPhi with
  | true =>
    rw [if_pos hphi] at hasked
    obtain ⟨p, hedge, hp⟩ := hasked
    obtain ⟨home', ys', hhome', hi', hdom⟩ := h.incoming hr hb hu hinst hphi hedge hp ho
    rw [hc.layout.one_block hhome hhome' hi hi']
    exact hdom.reachable
  | false =>
    rw [hphi] at hasked
    obtain ⟨pre, post, rfl⟩ := List.append_of_mem hu
    rcases h.operands hr hb hinst hphi hasked ho with hpre | ⟨home', ys', hhome', hi', hdom⟩
    · rw [hc.layout.one_block hhome hb hi (List.mem_append_left _ hpre)]
      exact hr
    · rw [hc.layout.one_block hhome hhome' hi hi']
      exact hdom.2.reachable

theorem SingleAssignment.startsBare (h : f.SingleAssignment) (hc : f.Coherent) : f.StartsBare := by
  intro entry xs he hxs i hi
  obtain ⟨inst, hinst⟩ := hc.inst_of_mem hxs hi
  rw [DataFlow.isPhi_of_inst hinst]
  cases hphi : inst.op.isPhi with
  | false => rfl
  | true =>
    have hr : f.Reachable entry := ⟨entry, [entry], he, .single entry⟩
    obtain ⟨p, v, hnone, -⟩ := h.entered hr hxs hi hinst hphi (.start he)
    cases hnone

/-- A function without errors is in static single assignment form exactly if it asks for nothing
that an unreachable block defines and does not start with phis. -/
theorem single_assignment_iff (hc : f.Coherent) (hv : f.errors = .ok []) :
    f.SingleAssignment ↔ f.AsksReached ∧ f.StartsBare := by
  obtain ⟨entry, hvalid⟩ := (errors_eq_nil_iff hc).1 hv
  constructor
  · intro h
    exact ⟨h.asksReached hc, h.startsBare hc⟩
  · rintro ⟨hasks, hbare⟩
    exact hvalid.singleAssignment hc hasks hbare

theorem Clean.startsBare (h : f.Clean entry) : f.StartsBare := by
  intro e xs he hxs
  cases h.starts.symm.trans he
  exact h.regular.bare hxs

theorem Clean.singleAssignment (h : f.Clean entry) (hasks : f.AsksReached) : f.SingleAssignment :=
  h.valid.singleAssignment h.coherent hasks h.startsBare

theorem Clean.orderly (h : f.Clean entry) (hasks : f.AsksReached) : f.Orderly f.Leads entry where
  toRegular := h.regular
  edges := id
  body {b pre u post inst v} hb hxs hu hop hv := by
    have hasked : f.Asked v :=
      ⟨b, _, u, inst, (reachable_iff h.starts).2 hb, hxs, by simp, hu, by rw [hop]; exact hv⟩
    exact (h.valid.dominated.body hb hxs hu hop hv).resolve_right
      (hasks.not_stranded h.starts hasked)
  phis {b xs u inst v p} hp hl hxs hu hinst hop hv := by
    have hb := hp.step hl
    have hasked : f.Asked v := ⟨b, xs, u, inst, (reachable_iff h.starts).2 hb, hxs, hu, hinst, by
      rw [if_pos hop]
      exact ⟨p, hv, (reachable_iff h.starts).2 hp⟩⟩
    exact (h.valid.dominated.phis hb hxs hu hinst hop hv hp).resolve_right
      (hasks.not_stranded h.starts hasked)

theorem Orderly.verified (h : f.Orderly f.Leads entry) (ht : f.Typed) : f.errors = .ok [] := by
  refine (errors_eq_nil_iff h.coherent).2 ⟨entry, h.starts, h.shape,
    fun hi => ⟨h.forms hi, ht hi⟩, ?_, ?_⟩
  · intro b pre u post inst v hb hxs hu hop hv
    exact .inl (h.body hb hxs hu hop hv)
  · intro b xs u inst v p hb hxs hu hinst hop hv hp
    obtain ⟨-, hpreds⟩ := h.shape.phi_edges hxs hu ((DataFlow.isPhi_of_inst hinst).trans hop) hinst
    exact .inl (h.phis hp ((hpreds p).1 (Inst.block_of_edge hv)) hxs hu hinst hop hv)

def allReached (f : Func) : Bool :=
  (DominatorTree.ofFunc f).toOption.any fun t => f.blocks.all t.isReachable

theorem reachable_of_allReached (hc : f.Coherent) (hv : f.Valid entry) (h : f.allReached = true) :
    ∀ b ∈ f.blocks, f.Reachable b := by
  obtain ⟨t, ht, hall⟩ := exists_of_any h
  obtain ⟨t', ht', hfaith, -⟩ := DominatorTree.ofFunc_ok hv.starts hv.shape.closed hc.bound
  cases ht.symm.trans ht'
  intro b hb
  exact (reachable_iff hv.starts).2 ((hfaith.isReachable_iff b).1 (List.all_eq_true.1 hall b hb))

theorem asksReached_of_reachable (h : ∀ b ∈ f.blocks, f.Reachable b) : f.AsksReached := by
  intro v ty i home ys _ _ hhome _
  exact h home (Layout.mem_blocks_iff.2 ⟨ys, hhome⟩)

/-- A loop with a phi, left when the count is down to zero. -/
def countDown : Checked Builder :=
  Func.build "down" ⟨[.int 32], some (.int 32)⟩
    [.block (some "entry"), .block (some "loop"), .block (some "exit"), .const (.int32 1),
    .const (.int32 0),
      .goTo (.append ⟨0⟩), .insert (.jump .br ⟨1⟩) .void,
      .goTo (.append ⟨1⟩), .insert (.phi .phi [⟨0⟩] [⟨0⟩]) (.int 32),
      .insert (.binary .sub ⟨3⟩ ⟨1⟩) (.int 32), .edge ⟨1⟩ ⟨4⟩ ⟨1⟩,
      .insert (.binary .eq ⟨4⟩ ⟨2⟩) (.int 1), .insert (.branch .brCond ⟨5⟩ ⟨2⟩ ⟨1⟩) .void,
      .goTo (.append ⟨2⟩), .insert (.unary .retValue ⟨4⟩) .void]

theorem countDown_single :
    ∃ b entry, countDown = .ok b ∧ b.func.Clean entry ∧ b.func.SingleAssignment := by
  obtain ⟨b, hb, h⟩ := exists_of_any (x := countDown) (p := fun b => b.func.isClean &&
    b.func.allReached) (by decide +kernel)
  rw [Bool.and_eq_true] at h
  obtain ⟨entry, hclean⟩ := clean_of_isClean (Func.build_coherent (by decide) hb) h.1
  have hasks : b.func.AsksReached :=
    asksReached_of_reachable (reachable_of_allReached hclean.coherent hclean.valid h.2)
  exact ⟨b, entry, hb, hclean, (single_assignment_iff hclean.coherent hclean.verified).2 ⟨hasks,
    hclean.startsBare⟩⟩

/-- The entry returns what a block computes that control never comes to. -/
def strandedUse : Checked Builder :=
  Func.build "f" ⟨[], some (.int 32)⟩
    [.block (some "entry"), .block (some "dead"), .const (.int32 1), .const (.int32 2),
      .goTo (.append ⟨1⟩), .insert (.binary .add ⟨0⟩ ⟨1⟩) (.int 32),
      .insert (.unary .retValue ⟨2⟩) .void, .goTo (.append ⟨0⟩),
      .insert (.unary .retValue ⟨2⟩) .void]

/-- Verification finds nothing, but the sum is not there when it is returned. -/
theorem strandedUse_not_single : ∃ b entry, strandedUse = .ok b ∧ b.func.Clean entry ∧
    ¬ b.func.SingleAssignment := by
  obtain ⟨b, hb, h⟩ := exists_of_any (x := strandedUse) (p := fun b => b.func.isClean &&
    b.func.entry.toOption = some ⟨0⟩ && (b.func.insts ⟨0⟩).toOption = some [⟨2⟩] &&
    b.func.flow.inst? ⟨2⟩ = some (.unary .retValue ⟨2⟩) &&
    b.func.flow.origin? ⟨2⟩ = some (.result (.int 32) ⟨0⟩)) (by decide +kernel)
  simp only [Bool.and_eq_true, decide_eq_true_eq] at h
  obtain ⟨⟨⟨⟨hclean, he⟩, hxs⟩, hinst⟩, ho⟩ := h
  obtain ⟨entry, hclean⟩ := clean_of_isClean (Func.build_coherent (by decide) hb) hclean
  refine ⟨b, entry, hb, hclean, ?_⟩
  intro hsingle
  have he : b.func.entry = .ok ⟨0⟩ := ok_of_toOption he
  have hr : b.func.Reachable ⟨0⟩ := ⟨_, _, he, .single _⟩
  have hxs : b.func.insts ⟨0⟩ = .ok ([] ++ [⟨2⟩]) := ok_of_toOption hxs
  rcases hsingle.operands hr hxs hinst rfl List.mem_cons_self ho with hpre | ⟨home, ys, -,
    -, hne, -, hdom⟩
  · cases hpre
  · exact hne (List.mem_singleton.1 (hdom _ _ he (.single _)))

end Func

end MiddleEnd
