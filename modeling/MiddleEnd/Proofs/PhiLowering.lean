import MiddleEnd.Proofs.FlowSimplification
import MiddleEnd.Proofs.PhiRegisters

/-!
# Lowering leaves no phis

Once the critical edges are split, every phi gets a register, blocks copy to it in front of their
terminators, and the phi goes. No terminator is touched by that, so that the edges stay as the
splitting left them.
-/

namespace MiddleEnd

namespace PhiLowering

open Func (Leads)

/-- Phis are gone, no edge leads from a fork to a merge, and every edge of the first function is
there or goes by a block of its own. -/
structure Destructed (f d : Func) : Prop where
  coherent : d.Coherent
  no_phi : ∀ i, d.flow.isPhi i = false
  not_critical : ∀ {u v}, d.Leads u v → ¬ (d.Forks u ∧ d.Merges v)
  edges : ∀ {u v}, f.Leads u v → d.Leads u v ∨ ¬ d.Leads u v ∧ ∃ s, s ∉ f.blocks ∧ d.Between s u v
  unshared : ∀ {s u v u' v'}, d.Between s u v → d.Between s u' v' → u = u' ∧ v = v'
  closed : d.Closed

theorem Translated.destructed {f c d : Func} {regs : Registers}
    {moves : BlockId → List (ValueId × ValueId)} {es : List (BlockId × BlockId)}
    {via : BlockId × BlockId → BlockId} (h : Translated c d regs moves) (hclosed : f.Closed)
    (hroute : f.Routed c es via) (hes : ∀ u v, (u, v) ∈ es ↔ f.Leads u v ∧ f.Forks u ∧ f.Merges v) :
    Destructed f d := by
  have hall : ∀ i, i ∈ c.allPhis ↔ c.flow.isPhi i = true :=
    fun i => mem_allPhis hroute.coherent hroute.shape
  have hleads : ∀ {u v}, d.Leads u v ↔ c.Leads u v :=
    h.lowered.leads_iff hroute.shape fun i hi => (hall i).1 hi
  have hforks : ∀ u, d.Forks u ↔ c.Forks u := fun u => by simp only [Func.Forks, hleads]
  have hmerges : ∀ v, d.Merges v ↔ c.Merges v := fun v => by simp only [Func.Merges, hleads]
  refine ⟨h.lowered.coherent, h.lowered.no_phi hroute.coherent hroute.shape hall,
    fun {u v} hl => ?_, fun {u v} hl => ?_, Func.Between.unique, fun u hu v hl => ?_⟩
  · rw [hforks, hmerges]
    exact hroute.not_critical hclosed (fun a b hl hf hm => (hes a b).2 ⟨hl, hf, hm⟩) (hleads.1 hl)
  · by_cases hmem : (u, v) ∈ es
    · have hbetween := hroute.between hclosed hmem
      refine .inr ⟨fun hd => hroute.not_leads hclosed hmem (hleads.1 hd), via (u, v),
        hroute.fresh _ hmem, ?_⟩
      exact ⟨hleads.2 hbetween.enter, hleads.2 hbetween.leave,
        fun hx => hbetween.sole_pred (hleads.1 hx),
        fun hy => hbetween.sole_succ (hleads.1 hy)⟩
    · exact .inl (hleads.2 (hroute.leads_iff.2 (.inl ⟨hl, hmem⟩)))
  · rw [h.lowered.blocks] at hu ⊢
    exact hroute.shape.closed u hu v (hleads.1 hl)

variable {b : Builder}

theorem run_yields (hc : b.func.Coherent) (hs : b.func.WellShaped) (hsome : b.func.isEmpty = false)
    (hphis : ∀ i, b.flow.isPhi i = true → ∃ v, b.flow.result? i = some v) :
    (run b).Yields fun r => Destructed b.func r.2.func := by
  refine (run_translates hc hs hsome hphis (P := fun _ => True) trivial fun _ _ _ =>
    trivial).mono ?_
  rintro r ⟨c, es, via, regs, moves, -, hroute, hes, htrans⟩
  exact htrans.destructed hs.closed hroute hes

theorem Destructed.again {f : Func} (h : Destructed f b.func) :
    (run b).Yields (· = (false, b)) := by
  obtain ⟨es, hes, -, hmem⟩ := criticalEdges_ok h.closed h.coherent.layout
  have hnil : es = [] := by
    refine List.eq_nil_iff_forall_not_mem.2 fun ⟨u, v⟩ he => ?_
    obtain ⟨hl, hcritical⟩ := (hmem u v).1 he
    exact h.not_critical hl hcritical
  subst hnil
  have hsplit : (splitCriticalEdges b).Yields (· = (false, b)) := by
    unfold splitCriticalEdges
    refine (Run.yields_lift ⟨_, hes, rfl⟩).bind ?_
    rintro _ rfl
    exact Run.yields_pure rfl
  have hphis : b.func.allPhis = [] := by
    refine List.eq_nil_iff_forall_not_mem.2 fun i hi => ?_
    obtain ⟨row, -, hi⟩ := List.mem_flatMap.1 hi
    have hphi : b.func.flow.isPhi i = true := List.all_eq_true.1 List.all_takeWhile i hi
    rw [h.no_phi] at hphi
    cases hphi
  unfold run
  refine (Run.yields_log (P := fun _ => True) trivial).bind fun _ _ => ?_
  split
  · exact Run.yields_pure rfl
  refine hsplit.bind ?_
  rintro _ rfl
  dsimp only
  rw [hphis]
  exact Run.yields_pure rfl

/-- Lowering a verified function whose phis yield values leaves neither phis nor edges from forks to
merges, and has nothing left to do. -/
theorem run_destructs (hc : b.func.Coherent) (hverified : b.func.errors = .ok [])
    (hphis : ∀ i, b.flow.isPhi i = true → ∃ v, b.flow.result? i = some v) :
    ∃ modified b', (run b).outcome = .ok (modified, b') ∧ Destructed b.func b'.func ∧
      (run b').outcome = .ok (false, b') := by
  obtain ⟨entry, hvalid⟩ := (Func.errors_eq_nil_iff hc).1 hverified
  obtain ⟨⟨modified, b'⟩, hrun, hd⟩ :=
    (run_yields hc hvalid.shape (Func.isEmpty_of_entry hvalid.starts) hphis).outcome
  obtain ⟨_, hagain, rfl⟩ := hd.again.outcome
  exact ⟨modified, b', hrun, hd, hagain⟩

theorem result_of_phi {f : Func} (hc : f.Coherent) (h : f.phisYield = true) {i : InstId}
    (hphi : f.flow.isPhi i = true) : ∃ v, f.flow.result? i = some v := by
  obtain ⟨inst, hi⟩ := DataFlow.inst_of_isPhi hphi
  obtain ⟨a, xs, hxs, hmem⟩ := hc.home hi
  obtain ⟨row, hrow, rfl⟩ := Layout.insts_eq_ok.1 hxs
  have hyields := List.all_eq_true.1 (List.all_eq_true.1 h row (Layout.row?_mem hrow)) i hmem
  rw [hphi] at hyields
  exact Option.isSome_iff_exists.1 (by simpa using hyields)

/-- A loop of one block, which leads to itself and past itself. -/
def selfLoop : Checked Builder :=
  Func.build "f" ⟨[.int 32, .int 1], some (.int 32)⟩
    [.block (some "entry"), .block (some "loop"), .block (some "exit"),
      .goTo (.append ⟨0⟩), .insert (.jump .br ⟨1⟩) .void,
      .goTo (.append ⟨1⟩), .insert (.phi .phi [⟨0⟩] [⟨0⟩]) (.int 32),
      .insert (.binary .add ⟨2⟩ ⟨0⟩) (.int 32), .edge ⟨1⟩ ⟨3⟩ ⟨1⟩,
      .insert (.branch .brCond ⟨1⟩ ⟨1⟩ ⟨2⟩) .void, .goTo (.append ⟨2⟩),
      .insert (.unary .retValue ⟨2⟩) .void]

theorem selfLoop_destructed : ∃ b modified b', selfLoop = .ok b ∧ b.flow.isPhi ⟨1⟩ = true ∧
    (run b).outcome = .ok (modified, b') ∧ Destructed b.func b'.func ∧ (run b').outcome = .ok
      (false, b') := by
  obtain ⟨b, hb, h⟩ := exists_of_any (x := selfLoop) (p := fun b =>
    b.func.errors.toOption.any (·.isEmpty) && b.func.phisYield &&
    b.flow.isPhi ⟨1⟩) (by decide +kernel)
  simp only [Bool.and_eq_true] at h
  obtain ⟨⟨herrors, hyield⟩, hphi⟩ := h
  have hc := Func.build_coherent (by decide) hb
  obtain ⟨modified, b', hrun, hresult⟩ :=
    run_destructs hc (Func.verified_of_any herrors) fun _ hi => result_of_phi hc hyield hi
  exact ⟨b, modified, b', hb, hphi, hrun, hresult⟩

/-- The function verifies, but its phi of type `void` cannot be lowered. -/
theorem voidMerge_not_destructed : ∃ b, FlowSimplification.voidMerge = .ok b ∧ b.func.Coherent ∧
    b.func.errors = .ok [] ∧ ∀ r, (run b).outcome ≠ .ok r := by
  obtain ⟨b, hb, h⟩ := exists_of_any (x := FlowSimplification.voidMerge)
    (p := fun b => b.func.errors.toOption.any (·.isEmpty) && (run b).outcome.toOption.isNone)
    (by decide +kernel)
  simp only [Bool.and_eq_true] at h
  obtain ⟨herrors, hrun⟩ := h
  refine ⟨b, hb, Func.build_coherent (by decide) hb, Func.verified_of_any herrors, fun r hr => ?_⟩
  rw [hr] at hrun
  cases hrun

end PhiLowering

end MiddleEnd
