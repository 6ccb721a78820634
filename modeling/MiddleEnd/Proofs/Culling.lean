import MiddleEnd.Proofs.DeadInstructions
import MiddleEnd.Proofs.EdgeEdits

/-!
# Culling

Instructions are deleted one after the other, whoever uses their results: `undef` takes the place of
these. Where all users are deleted as well nothing of this is left in the end.
-/

namespace MiddleEnd

namespace Func

/-- The second function is the first one without the instructions of `D`. Elsewhere `τ` stands for
their results. -/
structure Culled (f f' : Func) (D : List InstId) (τ : ValueId → ValueId) : Prop where
  coherent : f'.Coherent
  insts : ∀ b, f'.insts b = (f.insts b).map (·.filter (· ∉ D))
  inst? : ∀ i, f'.flow.inst? i = if i ∈ D then none else (f.flow.inst? i).map (·.mapArgs τ)
  result? : ∀ i, f'.flow.result? i = if i ∈ D then none else f.flow.result? i
  origin? : ∀ {v o}, f.flow.origin? v = some o → (∀ i ∈ D, f.flow.result? i ≠ some v) →
    f'.flow.origin? v = some o
  added : ∀ {v o}, f'.flow.origin? v = some o → f.flow.origin? v = some o ∨ o.isConst = true ∨
    o.isUndef = true
  kept : ∀ {v}, (∀ i ∈ D, f.flow.result? i ≠ some v) → τ v = v
  params : f'.flow.params = f.flow.params
  imports : f'.flow.imports = f.flow.imports
  alike : Alike f f'

variable {f f' f'' : Func} {D : List InstId} {τ σ : ValueId → ValueId} {i : InstId}

theorem Coherent.culled (h : f.Coherent) : f.Culled f [] id where
  coherent := h
  insts := (Thinned.refl f).insts
  inst? i := by
    cases f.flow.inst? i with
    | none => simp
    | some inst => simp [Inst.mapArgs_eq_self]
  result? i := by simp
  origin? ho _ := ho
  added ho := .inl ho
  kept _ := rfl
  params := rfl
  imports := rfl
  alike := .refl f

theorem Culled.inst_of (h : f.Culled f' D τ) {inst' : Inst} (hi : f'.flow.inst? i = some inst') :
    i ∉ D ∧ ∃ inst, f.flow.inst? i = some inst ∧ inst' = inst.mapArgs τ := by
  rw [h.inst?] at hi
  split at hi
  · cases hi
  · rename_i hn
    obtain ⟨inst, hinst, rfl⟩ := Option.map_eq_some_iff.1 hi
    exact ⟨hn, inst, hinst, rfl⟩

theorem Culled.calleesKnown (h : f.Culled f' D τ) (hk : f.CalleesKnown) : f'.CalleesKnown := by
  intro i inst' callee hi hcallee
  obtain ⟨-, inst, hinst, rfl⟩ := h.inst_of hi
  rw [h.imports]
  refine hk hinst ?_
  rw [← hcallee]
  cases inst <;> rfl

/-- More instructions go, after `σ` has taken the place of their results. -/
theorem Culled.trans {D' : List InstId} (h : f.Culled f' D τ) (hi : ∀ i ∈ D', i ∉ D)
    (h' : f'.Culled f'' D' σ) :
    f.Culled f'' (D ++ D') (σ ∘ τ) where
  coherent := h'.coherent
  insts b := by
    rw [h'.insts, h.insts]
    cases f.insts b with
    | error e => rfl
    | ok xs =>
      rw [map_ok, map_ok, map_ok, List.filter_filter]
      congr 2
      funext j
      simp [Bool.and_comm]
  inst? j := by
    rw [h'.inst?, h.inst?]
    by_cases hj : j ∈ D'
    · simp [hj]
    · by_cases hD : j ∈ D
      · simp [hD]
      · cases f.flow.inst? j with
        | none => simp [hj, hD]
        | some inst => simp [hj, hD, Inst.mapArgs_mapArgs]
  result? j := by
    rw [h'.result?, h.result?]
    by_cases hj : j ∈ D'
    · simp [hj]
    · by_cases hD : j ∈ D <;> simp [hj, hD]
  origin? {v o} ho hn := by
    refine h'.origin? (h.origin? ho fun j hj => hn j (List.mem_append_left _ hj)) fun j hj => ?_
    rw [h.result?, if_neg (hi j hj)]
    exact hn j (List.mem_append_right _ hj)
  added ho := by
    rcases h'.added ho with ho | ho
    · exact h.added ho
    · exact .inr ho
  kept {v} hn := by
    rw [Function.comp_apply, h.kept fun j hj => hn j (List.mem_append_left _ hj)]
    refine h'.kept fun j hj => ?_
    rw [h.result?, if_neg (hi j hj)]
    exact hn j (List.mem_append_right _ hj)
  params := h'.params.trans h.params
  imports := h'.imports.trans h.imports
  alike := h.alike.trans h'.alike

theorem Culled.thinned (h : f.Culled f' D τ)
    (hfree : ∀ {i inst}, i ∉ D → f.flow.inst? i = some inst →
      ∀ v ∈ inst.args, ∀ j ∈ D, f.flow.result? j ≠ some v) :
    f.Thinned f' D where
  insts := h.insts
  inst? i := by
    rw [h.inst?]
    by_cases hi : i ∈ D
    · rw [if_pos hi, if_pos hi]
    · rw [if_neg hi, if_neg hi]
      cases hinst : f.flow.inst? i with
      | none => rfl
      | some inst =>
        rw [Option.map_some, Inst.mapArgs_eq_self fun v hv => h.kept (hfree hi hinst v hv)]
  result? := h.result?
  origin? := h.origin?
  added := h.added
  params := h.params
  imports := h.imports
  alike := h.alike

theorem Culled.of_rewired {g : DataFlow}
    (hR : DataFlow.Rewired f.flow g fun _ inst => inst.mapArgs σ)
    (ht : ({ f with flow := g } : Func).Thinned f' [i]) (hc : f'.Coherent)
    (hkept : ∀ {v}, f.flow.result? i ≠ some v → σ v = v) : f.Culled f' [i] σ where
  coherent := hc
  insts := ht.insts
  inst? j := by rw [ht.inst?, hR.inst?]
  result? j := by rw [ht.result?, hR.result?]
  origin? ho hn := ht.origin? (hR.origin? ho) fun j hj he => hn j hj ((hR.result? j).symm.trans he)
  added ho := by
    rcases ht.added ho with ho | ho
    · exact hR.added ho
    · exact .inr ho
  kept hn := hkept (hn i List.mem_cons_self)
  params := ht.params.trans hR.params
  imports := ht.imports.trans hR.imports
  alike := ⟨ht.alike.name, ht.alike.sig, ht.alike.blockTable, ht.alike.blocks⟩

end Func

theorem Builder.deleteInst_ok {b : Builder} {i : InstId} {inst : Inst} (hc : b.func.Coherent)
    (hinst : b.flow.inst? i = some inst) (hplain : inst.op.isTerminator = false) :
    ∃ c σ, b.deleteInst i = .ok c ∧ b.func.Culled c.func [i] σ := by
  have hremove : (∀ v, b.flow.result? i = some v → ∀ j jnst, b.flow.inst? j = some jnst →
      v ∉ jnst.args) →
      ∃ c, b.removeInst i = .ok c ∧ b.func.Culled c.func [i] id := by
    intro hfree
    obtain ⟨c, hrun, hcoh, hs, ha, hl⟩ := removeInst_ok hc hinst hfree
    have hR : DataFlow.Rewired b.flow b.flow fun _ inst => inst.mapArgs id :=
      (DataFlow.Rewired.refl _).congr fun _ _ _ => (Inst.mapArgs_eq_self fun _ _ => rfl).symm
    exact ⟨c, hrun, .of_rewired hR ((Func.Thinned.refl _).shrink List.not_mem_nil hs ha hl)
      hcoh fun _ => rfl⟩
  unfold deleteInst
  cases hr : b.flow.result? i with
  | none =>
    obtain ⟨c, hrun, hcut⟩ := hremove fun v hv => by cases hr.symm.trans hv
    exact ⟨c, id, hrun, hcut⟩
  | some v =>
    obtain ⟨ty, ho, -⟩ := hc.flow.result_origin hr
    obtain ⟨used, hused, hiff⟩ := hc.flow.hasUsers_ok ho
    have hused : b.flow.hasUsers v = .ok used := hused
    simp only [hused, ok_bind]
    cases used with
    | false =>
      obtain ⟨c, hrun, hcut⟩ := hremove fun w hw j jnst hj hmem => by
        cases hr.symm.trans hw
        cases hiff.2 ⟨j, jnst, hj, hmem⟩
      exact ⟨c, id, hrun, hcut⟩
    | true =>
      obtain ⟨g, blank, hg, hcoh, hblank, hR⟩ := replaceByUndef_ok hc ho
      have hne : blank ≠ v := by
        rintro rfl
        rw [hR.origin? ho] at hblank
        cases hblank
      obtain ⟨c, hrun, hcohc, -, -, ht, -⟩ := removeReplaced_ok hinst hr hne hplain hcoh hR
      refine ⟨c, _, ?_, .of_rewired hR ht hcohc fun {w} hw =>
        DataFlow.swap_of_ne fun he => hw (he ▸ hr)⟩
      rw [if_pos rfl, hg]
      exact hrun

section Deletions

variable {b c : Builder} {D pre post : List InstId} {i : InstId} {τ : ValueId → ValueId}

theorem Builder.culled_delete (hn : D.Nodup)
    (hD : ∀ i ∈ D, ∃ inst, b.flow.inst? i = some inst ∧ inst.op.isTerminator = false)
    (he : D = pre ++ i :: post) (h : b.func.Culled c.func pre τ) :
    (b.func.CalleesKnown → ∃ text, c.func.instText i = .ok text) ∧
      ∃ d σ, c.deleteInst i = .ok d ∧ b.func.Culled d.func (pre ++ [i]) σ := by
  have hi : i ∉ pre := by
    rw [he] at hn
    exact fun hi => (List.nodup_append.1 hn).2.2 i hi i List.mem_cons_self rfl
  obtain ⟨inst, hinst, hplain⟩ :=
    hD i (by rw [he]; exact List.mem_append_right _ List.mem_cons_self)
  have hinst' : c.func.flow.inst? i = some (inst.mapArgs τ) := by
    rw [h.inst?, if_neg hi]
    exact congrArg (Option.map _) hinst
  refine ⟨fun hk => h.coherent.instText_ok (h.calleesKnown hk) hinst', ?_⟩
  obtain ⟨d, σ, hd, hcut⟩ :=
    deleteInst_ok h.coherent hinst' ((congrArg _ (Inst.op_mapArgs ..)).trans hplain)
  refine ⟨d, _, hd, h.trans (fun j hj => ?_) hcut⟩
  rw [List.mem_singleton.1 hj]
  exact hi

theorem Builder.deleteInsts_succeeds (hc : b.func.Coherent) (level : Level) (remark : String)
    (hn : D.Nodup) (hD : ∀ i ∈ D, ∃ inst, b.flow.inst? i = some inst ∧
      inst.op.isTerminator = false) :
    (D.foldlM (fun (c : Builder) i => do
      Run.log level fun _ => do
        return remark ++ (← c.func.instText i)
      c.deleteInst i) b : Run Builder).Succeeds b.func.CalleesKnown fun c =>
        ∃ τ, b.func.Culled c.func D τ := by
  refine Run.succeeds_foldlM (fun pre (c : Builder) => ∃ τ, b.func.Culled c.func pre τ)
    ⟨id, hc.culled⟩ ?_
  rintro pre i post c he ⟨τ, hcut⟩
  obtain ⟨htext, d, σ, hd, hcut'⟩ := culled_delete hn hD he hcut
  refine (Run.succeeds_log fun hk => ?_).bind fun _ _ => Run.succeeds_lift ⟨d, hd, σ, hcut'⟩
  obtain ⟨text, htext⟩ := htext hk
  exact ⟨_, by rw [htext, ok_bind]; rfl⟩

theorem Builder.deleteInsts_yields (hc : b.func.Coherent) (level : Level) (remark : String)
    (hn : D.Nodup) (hD : ∀ i ∈ D, ∃ inst, b.flow.inst? i = some inst ∧
      inst.op.isTerminator = false) :
    (D.foldlM (fun (c : Builder) i => do
      Run.log level fun _ => do
        return remark ++ (← c.func.instText i)
      c.deleteInst i) b : Run Builder).Yields fun c => ∃ τ, b.func.Culled c.func D τ := by
  refine Run.yields_foldlM (fun pre (c : Builder) => ∃ τ, b.func.Culled c.func pre τ)
    ⟨id, hc.culled⟩ ?_
  rintro pre i post c he ⟨τ, hcut⟩
  obtain ⟨-, d, σ, hd, hcut'⟩ := culled_delete hn hD he hcut
  exact (Run.yields_log (P := fun _ => True) trivial).bind fun _ _ =>
    Run.yields_lift ⟨d, hd, σ, hcut'⟩

end Deletions

end MiddleEnd
