import MiddleEnd.Pass
import MiddleEnd.Proofs.DeadCode

/-!
# Recursive pruning

Pruning removes an unused instruction and goes on with what it took its operands from. Whatever is
unused afterwards was so before or was not asked for. So pruning the instructions of a function one
by one removes what the work list of dead code elimination removes, though it comes by the
instructions in another order.
-/

namespace MiddleEnd

variable {f : Func} {b : Builder} {D : List InstId} {W : InstId → Prop} {i : InstId}

namespace Builder

theorem swept_of_absent (h : f.Swept b.func D fun j => j = i ∨ W j) (hi : b.flow.inst? i = none) :
    f.Swept b.func D W := by
  refine h.mono fun j hj hw => hw.resolve_left ?_
  rintro rfl
  exact Func.isDead_of_absent hi hj

theorem prunes_sweep {prune : InstId → Builder → Checked (Bool × Builder)} {n : Nat}
    (hprune : ∀ {b : Builder} {D W i inst}, f.Swept b.func D (fun j => j = i ∨ W j) →
      b.flow.inst? i = some inst →
      b.flow.insts.size ≤ n → ∃ removed c E, prune i b = .ok (removed, c) ∧
      f.Swept c.func (D ++ E) W ∧
        (removed = true ↔ E ≠ []) ∧ c.flow.insts.size ≤ b.flow.insts.size)
    {js : List InstId} (h : f.Swept b.func D fun j => j ∈ js ∨ W j) (hn : b.flow.insts.size ≤ n) :
    ∃ c E, js.foldlM (fun b j => do
        if b.flow.hasInst j then
          let r ← prune j b
          return r.2
        else return b) b = .ok c ∧ f.Swept c.func (D ++ E) W ∧
        c.flow.insts.size ≤ b.flow.insts.size := by
  induction js generalizing b D with
  | nil =>
    refine ⟨b, [], rfl, ?_, Nat.le_refl _⟩
    rw [List.append_nil]
    exact h.mono fun j _ hj => hj.resolve_left List.not_mem_nil
  | cons k js ih =>
    have hk : f.Swept b.func D fun j => j = k ∨ (j ∈ js ∨ W j) :=
      h.mono fun j _ hj => by rwa [List.mem_cons, or_assoc] at hj
    rw [List.foldlM_cons]
    cases hinst : b.flow.inst? k with
    | none =>
      obtain ⟨c, E, hrun, hs, hle⟩ := ih (swept_of_absent hk hinst) hn
      exact ⟨c, E, by rw [if_neg (by simp [DataFlow.hasInst_of_absent hinst])]; exact hrun, hs, hle⟩
    | some inst =>
      obtain ⟨removed, c, E, hc, hs, -, hle⟩ := hprune hk hinst hn
      obtain ⟨d, E', hrun, hs', hle'⟩ := ih hs (Nat.le_trans hle hn)
      rw [List.append_assoc] at hs'
      refine ⟨d, E ++ E', ?_, hs', Nat.le_trans hle' hle⟩
      rw [if_pos (DataFlow.hasInst_iff.2 ⟨inst, hinst⟩), hc]
      exact hrun

/-- Pruning one instruction takes it off what waits. Each instruction that goes takes one step, so
as many steps as there are instructions suffice. -/
theorem pruneWithin_sweeps {fuel : Nat} {inst : Inst} (h : f.Swept b.func D fun j => j = i ∨ W j)
    (hi : b.flow.inst? i = some inst) (hfuel : b.flow.insts.size < fuel) :
    ∃ removed c E, pruneWithin fuel i b = .ok (removed, c) ∧ f.Swept c.func (D ++ E) W ∧
      (removed = true ↔ E ≠ []) ∧ c.flow.insts.size ≤ b.flow.insts.size := by
  induction fuel generalizing i inst b D W with
  | zero => omega
  | succ fuel ih =>
    obtain ⟨dead, hdead, hiff⟩ := h.coherent.isDead_ok hi
    rw [pruneWithin, hdead, ok_bind]
    cases dead with
    | false =>
      refine ⟨false, b, [], rfl, ?_, by simp, Nat.le_refl _⟩
      rw [List.append_nil]
      refine h.mono fun j hj hw => hw.resolve_left ?_
      rintro rfl
      simpa using hiff.2 hj
    | true =>
      obtain ⟨js, hjs, -, hfeeds⟩ := h.coherent.definers_ok hi
      obtain ⟨c, hc, hs, hshrunk⟩ := h.remove (hiff.1 rfl)
      have hsize := hshrunk.size
      -- The operands wait besides.
      have hwaits : f.Swept c.func (D ++ [i]) fun j => j ∈ js ∨ W j := by
        refine hs.mono fun j _ hj => ?_
        obtain ⟨hne, (hj | hj) | hj⟩ := hj
        · exact absurd hj hne
        · exact .inr hj
        · exact .inl ((hfeeds j).2 hj)
      obtain ⟨d, E, hd, hd', hle⟩ := prunes_sweep (n := c.flow.insts.size)
        (fun hs hi hle => ih hs hi (by omega)) hwaits (Nat.le_refl _)
      rw [List.append_assoc] at hd'
      refine ⟨true, d, i :: E, ?_, hd', by simp, by omega⟩
      rw [DataFlow.inst_eq_ok.2 hi, ok_bind, show b.flow.definers inst.args = .ok js from hjs,
        ok_bind, hc, ok_bind]
      exact bind_eq_ok.2 ⟨d, hd, rfl⟩

theorem prune_sweeps {inst : Inst} (h : f.Swept b.func D fun j => j = i ∨ W j)
    (hi : b.flow.inst? i = some inst) :
    ∃ removed c E, b.prune i = .ok (removed, c) ∧ f.Swept c.func (D ++ E) W ∧
      (removed = true ↔ E ≠ []) := by
  obtain ⟨removed, c, E, hrun, hs, hflag, -⟩ := pruneWithin_sweeps h hi (Nat.lt_succ_self _)
  exact ⟨removed, c, E, hrun, hs, hflag⟩

end Builder

namespace Pass

theorem prunes_ok (hc : b.func.Coherent) :
    (onInsts (fun b i => liftM (b.prune i)) b).Succeeds True fun r =>
      ∃ D, b.func.Swept r.2.func D (fun _ => False) ∧ (r.1 = true ↔ D ≠ []) := by
  unfold onInsts
  have hstart : b.func.Swept b.func [] (· ∉ []) := hc.swept.mono fun _ _ _ => List.not_mem_nil
  refine Run.Succeeds.mono (Run.succeeds_foldlM (fun pre (r : Bool × Builder) =>
    ∃ D, b.func.Swept r.2.func D (· ∉ pre) ∧ (r.1 = true ↔ D ≠ [])) ⟨[], hstart, by simp⟩ ?_) ?_
  · rintro pre i post ⟨modified, c⟩ - ⟨D, hs, hflag⟩
    have hwaits : b.func.Swept c.func D fun j => j = i ∨ j ∉ pre ++ [i] := by
      refine hs.mono fun j _ hj => ?_
      by_cases hi : j = i
      · exact .inl hi
      · exact .inr (by simp [hi, hj])
    cases hi : c.flow.inst? i with
    | none =>
      simp only [DataFlow.hasInst_of_absent hi, Bool.false_eq_true, if_false]
      exact Run.succeeds_pure ⟨D, Builder.swept_of_absent hwaits hi, hflag⟩
    | some inst =>
      obtain ⟨removed, d, E, hd, hs', hremoved⟩ := Builder.prune_sweeps hwaits hi
      simp only [if_pos (DataFlow.hasInst_iff.2 ⟨inst, hi⟩)]
      refine (Run.succeeds_lift (P := (· = (removed, d))) ⟨_, hd, rfl⟩).bind ?_
      rintro _ rfl
      refine Run.succeeds_pure ⟨D ++ E, hs', ?_⟩
      rw [Bool.or_eq_true, hflag, hremoved]
      cases D <;> simp
  · rintro r ⟨D, hs, hflag⟩
    refine ⟨D, hs.mono fun i hi hn => hn ?_, hflag⟩
    obtain ⟨-, inst, hinst, -⟩ := hs.thinned.effectless_iff.1 hi.1
    exact (hc.placed i).2 ⟨inst, hinst⟩

/-- On a coherent function pruning each instruction ends without a fault, whoever listens. It leaves
the code that dead code elimination leaves, and the flags agree. -/
theorem prunes_agree (hc : b.func.Coherent) :
    (onInsts (fun b i => liftM (b.prune i)) b).Succeeds True fun r =>
      b.func.Shed r.2.func b.func.Dead ∧
      (DeadCode.run b).Succeeds b.func.CalleesKnown fun plain => plain.2.func.SameCode r.2.func ∧
      r.1 = plain.1 := by
  refine (prunes_ok hc).mono ?_
  rintro r ⟨D, hs, hflag⟩
  refine ⟨hs.shed fun _ => id, (DeadCode.run_ok hc).mono fun plain hplain => ?_⟩
  obtain ⟨D', hs', hflag'⟩ := hplain.swept
  refine ⟨(hs'.shed fun _ => id).sameCode (hs.shed fun _ => id) hs'.coherent, Bool.eq_iff_iff.2 ?_⟩
  rw [hflag, hflag', hs.ne_nil_iff fun _ => id, hs'.ne_nil_iff fun _ => id]

theorem tangle_prunes_agree : ∃ b r plain, DeadCode.tangle = .ok b ∧
    (onInsts (fun b i => liftM (b.prune i)) b).outcome = .ok r ∧
    (DeadCode.run b).outcome = .ok plain ∧ r.2.func.allInsts.map (·.index) = [3, 4, 5, 6, 7] ∧
    plain.2.func.SameCode r.2.func ∧ r.1 = plain.1 := by
  obtain ⟨b, hb, h⟩ := exists_of_any (x := DeadCode.tangle) (p := fun b =>
    (onInsts (fun b i => liftM (b.prune i)) b).outcome.toOption.any fun r =>
      r.2.func.allInsts.map (·.index) == [3, 4, 5, 6, 7]) (by decide +kernel)
  obtain ⟨r, hr, hkept⟩ := exists_of_any h
  obtain ⟨r', hr', -, hagree⟩ := (prunes_agree (Func.build_coherent (by decide) hb)).outcome
  cases hr.symm.trans hr'
  obtain ⟨plain, hplain, hsame, hflag⟩ := hagree.outcome
  exact ⟨b, r, plain, hb, hr, hplain, beq_iff_eq.1 hkept, hsame, hflag⟩

end Pass

end MiddleEnd
