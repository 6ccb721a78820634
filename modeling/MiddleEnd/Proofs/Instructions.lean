import MiddleEnd.Proofs.Rewiring

/-!
# Adding and removing instructions

A new instruction comes with a fresh number and, unless its type is `void`, with a fresh value. An
instruction whose result nobody uses goes without a trace.
-/

namespace MiddleEnd.DataFlow

/-- The second graph is the first one with a new instruction, which yields the value `v?`. -/
structure Grown (g g' : DataFlow) (i : InstId) (inst : Inst) (ty : Ty) (v? : Option ValueId) :
    Prop where
  fresh : g.inst? i = none
  inst? : ∀ j, g'.inst? j = if j = i then some inst else g.inst? j
  result? : ∀ j, g'.result? j = if j = i then v? else g.result? j
  origin? : ∀ w, g'.origin? w = if v? = some w then some (.result ty i) else g.origin? w
  value_fresh : ∀ v, v? = some v → g.origin? v = none
  yields : v? = none ↔ ty = .void
  params : g'.params = g.params
  imports : g'.imports = g.imports
  epoch : inst.op.isTerminator = false → g'.epoch = g.epoch

theorem linkUses_ok {g : DataFlow} {i : InstId} {args : List ValueId} (fault : ValueId → Fault)
    (h : ∀ v ∈ args, ∃ o, g.origin? v = some o) :
    ∃ g', args.foldlM (fun g v => g.linkUse (fault v) v i) g = .ok g' ∧ UsersOnly g g' ∧
      ∀ w j, g'.Uses w j ↔ g.Uses w j ∨ (w ∈ args ∧ j = i) := by
  refine foldlM_yields
    (fun pre g' => UsersOnly g g' ∧ ∀ w j, g'.Uses w j ↔ g.Uses w j ∨ (w ∈ pre ∧ j = i))
    ⟨UsersOnly.refl g, by simp⟩ ?_
  rintro pre v post c rfl ⟨hs, hu⟩
  obtain ⟨o, ho⟩ := h v (List.mem_append_right _ List.mem_cons_self)
  have ho' : c.origin? v = some o := by rw [hs.origins, ho]
  obtain ⟨g', hg', hs', hu'⟩ := linkUse_ok ho' (fault v) i
  refine ⟨g', hg', hs.trans hs', fun w j => ?_⟩
  rw [hu', hu, List.mem_append, List.mem_singleton]
  grind

/-- The same graph but for the instructions that refer to blocks. -/
structure BlockUsersOnly (g g' : DataFlow) : Prop where
  insts : g'.insts = g.insts
  values : g'.values = g.values
  params : g'.params = g.params
  imports : g'.imports = g.imports
  epoch : g'.epoch = g.epoch

theorem linkBlocks_spec (g : DataFlow) (i : InstId) (bs : List BlockId) :
    BlockUsersOnly g (bs.foldl (·.linkBlock · i) g) ∧
      ∀ c j, j ∈ (bs.foldl (·.linkBlock · i) g).usersOfBlock c ↔ j ∈ g.usersOfBlock c ∨
        (c ∈ bs ∧ j = i) := by
  refine foldl_induct
    (fun pre g' => BlockUsersOnly g g' ∧
      ∀ c j, j ∈ g'.usersOfBlock c ↔ j ∈ g.usersOfBlock c ∨ (c ∈ pre ∧ j = i))
    ⟨⟨rfl, rfl, rfl, rfl, rfl⟩, by simp⟩ ?_
  rintro pre b post g' - ⟨hs, hu⟩
  refine ⟨⟨hs.insts, hs.values, hs.params, hs.imports, hs.epoch⟩, fun c j => ?_⟩
  rw [mem_usersOfBlock_linkBlock, hu, List.mem_append, List.mem_singleton]
  grind

theorem unlinkBlocks_spec (g : DataFlow) (i : InstId) (bs : List BlockId) :
    BlockUsersOnly g (bs.foldl (·.unlinkBlock · i) g) ∧
      ∀ c j, j ∈ (bs.foldl (·.unlinkBlock · i) g).usersOfBlock c ↔
        j ∈ g.usersOfBlock c ∧ ¬ (c ∈ bs ∧ j = i) := by
  refine foldl_induct
    (fun pre g' => BlockUsersOnly g g' ∧
      ∀ c j, j ∈ g'.usersOfBlock c ↔ j ∈ g.usersOfBlock c ∧ ¬ (c ∈ pre ∧ j = i))
    ⟨⟨rfl, rfl, rfl, rfl, rfl⟩, by simp⟩ ?_
  rintro pre b post g' - ⟨hs, hu⟩
  have hone : BlockUsersOnly g' (g'.unlinkBlock b i) := by
    unfold unlinkBlock
    split <;> exact ⟨rfl, rfl, rfl, rfl, rfl⟩
  refine ⟨⟨hone.insts.trans hs.insts, hone.values.trans hs.values, hone.params.trans hs.params,
    hone.imports.trans hs.imports, hone.epoch.trans hs.epoch⟩, fun c j => ?_⟩
  rw [mem_usersOfBlock_unlinkBlock, hu, List.mem_append, List.mem_singleton]
  grind

theorem unlinkUses_spec (g : DataFlow) (i : InstId) (args : List ValueId) :
    UsersOnly g (args.foldl (·.unlinkUse · i) g) ∧
      ∀ w j, (args.foldl (·.unlinkUse · i) g).Uses w j ↔ g.Uses w j ∧ ¬ (w ∈ args ∧ j = i) := by
  refine foldl_induct
    (fun pre g' => UsersOnly g g' ∧ ∀ w j, g'.Uses w j ↔ g.Uses w j ∧ ¬ (w ∈ pre ∧ j = i))
    ⟨UsersOnly.refl g, by simp⟩ ?_
  rintro pre v post g' - ⟨hs, hu⟩
  obtain ⟨hs', hu'⟩ := unlinkUse_spec g' v i
  refine ⟨hs.trans hs', fun w j => ?_⟩
  rw [hu', hu, List.mem_append, List.mem_singleton]
  grind

/-- What an instruction that is there already adds to a graph without it. -/
theorem Grown.exact {g g' : DataFlow} {i : InstId} {inst : Inst} {ty : Ty} {v? : Option ValueId}
    (h : Grown g g' i inst ty v?) (hg : g.Exact)
    (hargs : ∀ v ∈ inst.args, ∃ o, g.origin? v = some o)
    (hphi : ∀ op args preds, inst = .phi op args preds → args.length = preds.length)
    (hu : ∀ w j, g'.Uses w j ↔ g.Uses w j ∨ (w ∈ inst.args ∧ j = i))
    (hb : ∀ c j, j ∈ g'.usersOfBlock c ↔ j ∈ g.usersOfBlock c ∨ (c ∈ inst.blocks ∧ j = i)) :
    g'.Exact := by
  have hkeep : ∀ {w o}, g.origin? w = some o → g'.origin? w = some o := by
    intro w o hw
    rw [h.origin?, if_neg, hw]
    intro hv
    rw [h.value_fresh w hv] at hw
    cases hw
  have hused : ∀ {w j}, g.Uses w j → ∃ jnst, g.inst? j = some jnst ∧ w ∈ jnst.args := by
    intro w j hj
    obtain ⟨e, he, -⟩ := uses_iff.1 hj
    exact (hg.users_iff (origin?_eq_some.2 ⟨e, he, rfl⟩) j).1 hj
  have hnot : ∀ {w}, ¬ g.Uses w i := by
    intro w hw
    obtain ⟨jnst, hj, -⟩ := hused hw
    rw [h.fresh] at hj
    cases hj
  refine
    { users_iff := ?_, operand := ?_, blockUsers_iff := ?_, phi_lengths := ?_, result_origin := ?_,
      origin_result := ?_, shared_unique := ?_, param_origin := ?_, params_nodup := ?_ }
  · intro w o hw j
    rw [hu, h.inst?]
    by_cases hj : j = i
    · subst hj
      rw [if_pos rfl]
      constructor
      · rintro (hw | ⟨hw, -⟩)
        · exact absurd hw hnot
        · exact ⟨inst, rfl, hw⟩
      · rintro ⟨_, hi, hw⟩
        cases hi
        exact .inr ⟨hw, rfl⟩
    · rw [if_neg hj]
      constructor
      · rintro (hw | ⟨-, hji⟩)
        · exact hused hw
        · exact absurd hji hj
      · rintro ⟨jnst, hjn, hwj⟩
        exact .inl ((hg.uses_iff_mem hjn w).2 hwj)
  · intro j jnst w hj hw
    rw [h.inst?] at hj
    split at hj
    · cases hj
      obtain ⟨o, ho⟩ := hargs w hw
      exact ⟨o, hkeep ho⟩
    · obtain ⟨o, ho⟩ := hg.operand hj hw
      exact ⟨o, hkeep ho⟩
  · intro c j
    rw [hb, h.inst?, hg.blockUsers_iff]
    by_cases hj : j = i
    · subst hj
      simp [h.fresh]
    · simp [hj]
  · intro j op args preds hj
    rw [h.inst?] at hj
    split at hj
    · exact hphi op args preds (Option.some.inj hj)
    · exact hg.phi_lengths hj
  · intro j v hj
    rw [h.result?] at hj
    split at hj
    · rename_i hji
      subst hji
      refine ⟨ty, by rw [h.origin?, if_pos hj], fun hty => ?_⟩
      rw [h.yields.2 hty] at hj
      cases hj
    · obtain ⟨ty', ho, hn⟩ := hg.result_origin hj
      exact ⟨ty', hkeep ho, hn⟩
  · intro v ty' j hv
    rw [h.origin?] at hv
    split at hv
    · rename_i hv'
      cases hv
      rw [h.result?, if_pos rfl, hv']
    · have hj := hg.origin_result hv
      rw [h.result?, if_neg, hj]
      rintro rfl
      obtain ⟨jnst, hjn⟩ := hasInst_of_result hj
      rw [h.fresh] at hjn
      cases hjn
  · intro v w o hv hw ho
    have hold : ∀ {u}, g'.origin? u = some o → g.origin? u = some o := by
      intro u hu
      rw [h.origin?] at hu
      split at hu
      · cases hu
        simp [ValueDef.isConst, ValueDef.isUndef] at ho
      · exact hu
    exact hg.shared_unique (hold hv) (hold hw) ho
  · intro v hv
    rw [h.params] at hv
    obtain ⟨ty', p, ho⟩ := hg.param_origin hv
    exact ⟨ty', p, hkeep ho⟩
  · rw [h.params]
    exact hg.params_nodup

/-- An instruction whose operands are there can be added, and is recorded as a user of them and of
its blocks. -/
theorem addInst_grows {g : DataFlow} {inst : Inst} (ty : Ty)
    (hargs : ∀ v ∈ inst.args, ∃ o, g.origin? v = some o) :
    ∃ i g' v?, g.addInst inst ty = .ok (i, g') ∧ Grown g g' i inst ty v? ∧
      (∀ w j, g'.Uses w j ↔ g.Uses w j ∨ (w ∈ inst.args ∧ j = i)) ∧
      ∀ c j, j ∈ g'.usersOfBlock c ↔ j ∈ g.usersOfBlock c ∨ (c ∈ inst.blocks ∧ j = i) := by
  -- The epoch plays no part in anything else.
  obtain ⟨g₀, hg₀, hins₀, hval₀, hpar₀, himp₀, hbu₀, hep₀⟩ : ∃ g₀ : DataFlow,
      (if inst.op.isTerminator then g.touch else g) = g₀ ∧ g₀.insts = g.insts ∧
      g₀.values = g.values ∧
        g₀.params = g.params ∧ g₀.imports = g.imports ∧ g₀.blockUsers = g.blockUsers ∧
        (inst.op.isTerminator = false → g₀.epoch = g.epoch) := by
    by_cases ht : inst.op.isTerminator = true
    · refine ⟨_, rfl, ?_⟩
      rw [if_pos ht]
      refine ⟨rfl, rfl, rfl, rfl, rfl, fun h => ?_⟩
      rw [ht] at h
      cases h
    · refine ⟨_, rfl, ?_⟩
      rw [if_neg ht]
      exact ⟨rfl, rfl, rfl, rfl, rfl, fun _ => rfl⟩
  let i : InstId := (g₀.insts.add { inst }).1
  let g₁ : DataFlow := { g₀ with insts := (g₀.insts.add { inst }).2 }
  have hidx : i.index = g.insts.bound := by
    rw [← hins₀]
    rfl
  have hget₁ : ∀ j : InstId, g₁.insts.get? j = if j = i then some { inst } else g.insts.get? j := by
    intro j
    have : g₁.insts.get? j = (g₀.insts.add { inst }).2.get? j := rfl
    rw [this, Table.get?_add, hins₀]
    by_cases hj : j = i
    · subst hj
      rw [if_pos rfl, if_pos]
      exact hidx
    · rw [if_neg hj, if_neg]
      intro h
      exact hj (Key.index_inj (h.trans hidx.symm))
  have hfresh : g.insts.get? i = none := Table.get?_ge_bound (Nat.le_of_eq hidx.symm)
  have horig₁ : ∀ w, g₁.origin? w = g.origin? w := by
    intro w
    show (g₀.values.get? w).map (·.origin) = (g.values.get? w).map (·.origin)
    rw [hval₀]
  have huses₁ : ∀ w j, g₁.Uses w j ↔ g.Uses w j := by
    intro w j
    rw [uses_iff, uses_iff]
    show (∃ e, g₀.values.get? w = some e ∧ _) ↔ _
    rw [hval₀]
  have hargs₁ : ∀ v ∈ inst.args, ∃ o, g₁.origin? v = some o := by
    intro v hv
    rw [horig₁]
    exact hargs v hv
  obtain ⟨g₂, hg₂, hs₂, hu₂⟩ := linkUses_ok (i := i) (fun v => .operandAbsent v i) hargs₁
  obtain ⟨hs₃, hb₃⟩ := linkBlocks_spec g₂ i inst.blocks
  have hins₃ : (inst.blocks.foldl (·.linkBlock · i) g₂).insts = g₁.insts :=
    hs₃.insts.trans hs₂.insts
  have horig₃ : ∀ w, (inst.blocks.foldl (·.linkBlock · i) g₂).origin? w = g.origin? w := by
    intro w
    unfold origin?
    rw [hs₃.values]
    exact (hs₂.origins w).trans (horig₁ w)
  have huses₃ : ∀ w j, (inst.blocks.foldl (·.linkBlock · i) g₂).Uses w j ↔
      g.Uses w j ∨ (w ∈ inst.args ∧ j = i) := by
    intro w j
    rw [← huses₁, ← hu₂, uses_iff, uses_iff, hs₃.values]
  have hblocks₃ : ∀ c j, j ∈ (inst.blocks.foldl (·.linkBlock · i) g₂).usersOfBlock c ↔
      j ∈ g.usersOfBlock c ∨ (c ∈ inst.blocks ∧ j = i) := by
    intro c j
    rw [hb₃, usersOfBlock_of_blockUsers (hs₂.blockUsers.trans hbu₀)]
  have hparams₃ := hs₃.params.trans (hs₂.params.trans hpar₀)
  have himports₃ := hs₃.imports.trans (hs₂.imports.trans himp₀)
  have hepoch₃ : inst.op.isTerminator = false →
      (inst.blocks.foldl (·.linkBlock · i) g₂).epoch = g.epoch := fun ht =>
    hs₃.epoch.trans (hs₂.epoch.trans (hep₀ ht))
  have hinst : ∀ {g' : DataFlow}, (∀ j, (g'.insts.get? j).map (·.inst) =
      (g₁.insts.get? j).map (·.inst)) →
      ∀ j, g'.inst? j = if j = i then some inst else g.inst? j := by
    intro g' h j
    rw [inst?, h, hget₁]
    split <;> rfl
  have hrun : g.addInst inst ty =
      if ty.isVoid then .ok (i, inst.blocks.foldl (·.linkBlock · i) g₂)
      else .ok (i, { ((inst.blocks.foldl (·.linkBlock · i) g₂).addValue (.result ty i)).2 with
        insts := (inst.blocks.foldl (·.linkBlock · i) g₂).insts.update i fun e =>
          { e with result? := some ((inst.blocks.foldl (·.linkBlock · i) g₂).addValue
            (.result ty i)).1 } }) := by
    unfold addInst
    rw [hg₀]
    simp only [g₁, i] at hg₂
    simp only [hg₂, ok_bind]
    cases ty.isVoid <;> rfl
  by_cases hty : ty = .void
  · subst hty
    have hG : Grown g (inst.blocks.foldl (·.linkBlock · i) g₂) i inst .void none :=
      { fresh := by rw [inst?, hfresh]; rfl
        inst? := hinst fun j => by rw [hins₃]
        result? := by
          intro j
          rw [DataFlow.result?, hins₃, hget₁]
          split <;> rfl
        origin? := by
          intro w
          rw [horig₃]
          simp
        value_fresh := by
          intro v hv
          cases hv
        yields := by simp
        params := hparams₃
        imports := himports₃
        epoch := hepoch₃ }
    exact ⟨i, _, none, hrun, hG, huses₃, hblocks₃⟩
  · have hvoid : ty.isVoid = false := by
      cases ty with
      | void => exact absurd rfl hty
      | _ => rfl
    rw [hvoid] at hrun
    generalize hg₃ : inst.blocks.foldl (·.linkBlock · i) g₂ = g₃ at *
    have hbound : ∀ w : ValueId, (g₃.addValue (.result ty i)).1 = w ↔
        w.index = g₃.values.bound := by
      intro w
      constructor
      · rintro rfl
        rfl
      · exact fun h => Key.index_inj h.symm
    have hG : Grown g { (g₃.addValue (.result ty i)).2 with
        insts := g₃.insts.update i fun e =>
          { e with result? := some (g₃.addValue (.result ty i)).1 } }
        i inst ty (some (g₃.addValue (.result ty i)).1) :=
      { fresh := by rw [inst?, hfresh]; rfl
        inst? := by
          refine hinst fun j => ?_
          simp only [Table.get?_update, hins₃]
          split
          · rename_i hj
            subst hj
            cases g₁.insts.get? i <;> rfl
          · rfl
        result? := by
          intro j
          simp only [DataFlow.result?, Table.get?_update, hins₃, hget₁]
          by_cases hj : j = i
          · rw [if_pos hj, if_pos hj, if_pos trivial]
            rfl
          · rw [if_neg hj, if_neg hj, if_neg hj]
        origin? := by
          intro w
          have h := origin?_addValue g₃ (.result ty i) w
          rw [horig₃] at h
          refine Eq.trans h ?_
          simp only [Option.some.injEq, hbound]
        value_fresh := by
          intro v hv
          rw [← horig₃]
          have hv' := (hbound v).1 (Option.some.inj hv)
          rw [DataFlow.origin?, Table.get?_ge_bound (Nat.le_of_eq hv'.symm)]
          rfl
        yields := by simp [hty]
        params := hparams₃
        imports := himports₃
        epoch := hepoch₃ }
    exact ⟨i, _, _, hrun, hG, fun w j => (uses_addValue g₃ (.result ty i) w j).trans (huses₃ w j),
      hblocks₃⟩

theorem addInst_ok {g : DataFlow} (hg : g.Exact) {inst : Inst} (ty : Ty)
    (hargs : ∀ v ∈ inst.args, ∃ o, g.origin? v = some o)
    (hphi : ∀ op args preds, inst = .phi op args preds → args.length = preds.length) :
    ∃ i g' v?, g.addInst inst ty = .ok (i, g') ∧ g'.Exact ∧ Grown g g' i inst ty v? := by
  obtain ⟨i, g', v?, hadd, hgrown, huses, hblocks⟩ := addInst_grows ty hargs
  exact ⟨i, g', v?, hadd, hgrown.exact hg hargs hphi huses hblocks, hgrown⟩

/-- The second graph is the first one without an instruction and its result. -/
structure Shrunk (g g' : DataFlow) (i : InstId) : Prop where
  inst? : ∀ j, g'.inst? j = if j = i then none else g.inst? j
  result? : ∀ j, g'.result? j = if j = i then none else g.result? j
  origin? : ∀ w, g'.origin? w = if g.result? i = some w then none else g.origin? w
  params : g'.params = g.params
  imports : g'.imports = g.imports
  epoch : g.isTerminator i = false → g'.epoch = g.epoch
  size : g'.insts.size + 1 = g.insts.size

theorem Shrunk.exact {g g' : DataFlow} {i : InstId} {inst : Inst} (h : Shrunk g g' i) (hg : g.Exact)
    (hi : g.inst? i = some inst)
    (hfree : ∀ v, g.result? i = some v → ∀ j jnst, g.inst? j = some jnst → v ∉ jnst.args)
    (hu : ∀ {w o}, g'.origin? w = some o → ∀ j, g'.Uses w j ↔ g.Uses w j ∧
      ¬ (w ∈ inst.args ∧ j = i))
    (hb : ∀ c j, j ∈ g'.usersOfBlock c ↔ j ∈ g.usersOfBlock c ∧ ¬ (c ∈ inst.blocks ∧ j = i)) :
    g'.Exact := by
  have hback : ∀ {w o}, g'.origin? w = some o → g.origin? w = some o := by
    intro w o hw
    rw [h.origin?] at hw
    split at hw
    · cases hw
    · exact hw
  have hkeep : ∀ {w o}, g.origin? w = some o → g.result? i ≠ some w → g'.origin? w = some o := by
    intro w o hw hne
    rw [h.origin?, if_neg hne, hw]
  refine
    { users_iff := ?_, operand := ?_, blockUsers_iff := ?_, phi_lengths := ?_, result_origin := ?_,
      origin_result := ?_, shared_unique := ?_, param_origin := ?_, params_nodup := ?_ }
  · intro w o hw j
    rw [hu hw, h.inst?, hg.users_iff (hback hw)]
    by_cases hj : j = i
    · subst hj
      simp [hi]
    · simp [hj]
  · intro j jnst w hj hw
    rw [h.inst?] at hj
    split at hj
    · cases hj
    · obtain ⟨o, ho⟩ := hg.operand hj hw
      exact ⟨o, hkeep ho fun hr => hfree w hr j jnst hj hw⟩
  · intro c j
    rw [hb, h.inst?, hg.blockUsers_iff]
    by_cases hj : j = i
    · subst hj
      simp [hi]
    · simp [hj]
  · intro j op args preds hj
    rw [h.inst?] at hj
    split at hj
    · cases hj
    · exact hg.phi_lengths hj
  · intro j v hj
    rw [h.result?] at hj
    split at hj
    · cases hj
    · rename_i hji
      obtain ⟨ty, ho, hn⟩ := hg.result_origin hj
      refine ⟨ty, hkeep ho fun hr => hji ?_, hn⟩
      obtain ⟨ty', ho', -⟩ := hg.result_origin hr
      rw [ho] at ho'
      cases ho'
      rfl
  · intro v ty j hv
    have hj := hg.origin_result (hback hv)
    rw [h.result?, if_neg, hj]
    rintro rfl
    rw [h.origin?, if_pos hj] at hv
    cases hv
  · intro v w o hv hw ho
    exact hg.shared_unique (hback hv) (hback hw) ho
  · intro v hv
    rw [h.params] at hv
    obtain ⟨ty, p, ho⟩ := hg.param_origin hv
    refine ⟨ty, p, hkeep ho fun hr => ?_⟩
    obtain ⟨ty', ho', -⟩ := hg.result_origin hr
    rw [ho] at ho'
    cases ho'
  · rw [h.params]
    exact hg.params_nodup

theorem clearName_spec (g : DataFlow) (v : ValueId) :
    (g.clearName v).2.insts = g.insts ∧ (g.clearName v).2.values = g.values ∧
      (g.clearName v).2.params = g.params ∧ (g.clearName v).2.imports = g.imports ∧
      (g.clearName v).2.blockUsers = g.blockUsers ∧ (g.clearName v).2.epoch = g.epoch := by
  unfold clearName
  split <;> exact ⟨rfl, rfl, rfl, rfl, rfl, rfl⟩

def detach (g : DataFlow) (i : InstId) : Checked DataFlow := do
  let (entry, insts) ← g.insts.remove i
  let g := { g with insts }
  let g := if entry.inst.op.isTerminator then g.touch else g
  let g := entry.inst.args.foldl (·.unlinkUse · i) g
  return entry.inst.blocks.foldl (·.unlinkBlock · i) g

theorem detach_ok {g : DataFlow} {i : InstId} {inst : Inst} (hi : g.inst? i = some inst) :
    ∃ g', g.detach i = .ok g' := by
  obtain ⟨e, he, -⟩ := inst?_eq_some.1 hi
  obtain ⟨t, ht⟩ := Table.remove_ok he
  unfold detach
  rw [ht, ok_bind]
  exact ⟨_, rfl⟩

/-- What changes is the table of instructions and the records of its users. -/
structure Detached (g g' : DataFlow) (i : InstId) (inst : Inst) : Prop where
  there : g.inst? i = some inst
  insts : ∀ j, g'.insts.get? j = if j = i then none else g.insts.get? j
  size : g'.insts.size + 1 = g.insts.size
  origins : ∀ v, g'.origin? v = g.origin? v
  params : g'.params = g.params
  imports : g'.imports = g.imports
  epoch : g'.epoch = g.epoch + if inst.op.isTerminator then 1 else 0
  users : ∀ w j, g'.Uses w j ↔ g.Uses w j ∧ ¬ (w ∈ inst.args ∧ j = i)
  blockUsers : ∀ c j, j ∈ g'.usersOfBlock c ↔ j ∈ g.usersOfBlock c ∧ ¬ (c ∈ inst.blocks ∧ j = i)

theorem detach_spec {g g' : DataFlow} {i : InstId} (h : g.detach i = .ok g') :
    ∃ inst, Detached g g' i inst := by
  obtain ⟨⟨e, t⟩, ht, h⟩ := bind_eq_ok.1 h
  obtain ⟨he, -, hget⟩ := Table.remove_eq_ok ht
  obtain ⟨g₂, hg₂, hins₂, hval₂, hpar₂, himp₂, hbu₂, hep₂⟩ : ∃ g₂ : DataFlow,
      (if e.inst.op.isTerminator then ({ g with insts := t } : DataFlow).touch else
      { g with insts := t }) = g₂ ∧
        g₂.insts = t ∧ g₂.values = g.values ∧ g₂.params = g.params ∧ g₂.imports = g.imports ∧
        g₂.blockUsers = g.blockUsers ∧
        g₂.epoch = g.epoch + if e.inst.op.isTerminator then 1 else 0 := by
    refine ⟨_, rfl, ?_⟩
    split <;> exact ⟨rfl, rfl, rfl, rfl, rfl, rfl⟩
  obtain ⟨hs₃, hu₃⟩ := unlinkUses_spec g₂ i e.inst.args
  obtain ⟨hs₄, hb₄⟩ := unlinkBlocks_spec (e.inst.args.foldl (·.unlinkUse · i) g₂) i e.inst.blocks
  dsimp only at h
  rw [hg₂] at h
  cases h
  refine ⟨e.inst, ⟨inst?_eq_some.2 ⟨e, he, rfl⟩, fun j => ?_, ?_, fun v => ?_, ?_, ?_, ?_,
    fun w j => ?_, fun c j => ?_⟩⟩
  · rw [hs₄.insts, hs₃.insts, hins₂, hget]
  · rw [hs₄.insts, hs₃.insts, hins₂]
    exact Table.size_remove ht
  · rw [show DataFlow.origin? _ v = _ from congrArg (fun t => (t.get? v).map (·.origin)) hs₄.values]
    exact (hs₃.origins v).trans (congrArg (fun t => (t.get? v).map (·.origin)) hval₂)
  · exact hs₄.params.trans (hs₃.params.trans hpar₂)
  · exact hs₄.imports.trans (hs₃.imports.trans himp₂)
  · exact hs₄.epoch.trans (hs₃.epoch.trans hep₂)
  · rw [uses_iff, hs₄.values, ← uses_iff, hu₃, uses_iff, hval₂, ← uses_iff]
  · rw [hb₄, usersOfBlock_of_blockUsers (hs₃.blockUsers.trans hbu₂)]

theorem removeInst_parts {g g' : DataFlow} {i : InstId} (h : g.removeInst i = .ok g') :
    (g.result? i = none ∧ g.detach i = .ok g') ∨
      ∃ v e values, g.result? i = some v ∧ g.hasUsers v = .ok false ∧
        g.values.remove v = .ok (e, values) ∧
        (({ g with values } : DataFlow).clearName v).2.detach i = .ok g' := by
  unfold removeInst at h
  dsimp only at h
  split at h
  · rename_i hr
    exact .inl ⟨hr, h⟩
  · rename_i v hr
    obtain ⟨used, hused, h⟩ := bind_eq_ok.1 h
    cases used with
    | true => cases h
    | false =>
      obtain ⟨⟨e, values⟩, hvalues, h⟩ := bind_eq_ok.1 h
      exact .inr ⟨v, e, values, hr, hused, hvalues, h⟩

/-- An instruction whose removal goes through leaves nothing behind, and nothing else changes. -/
theorem removeInst_shrinks {g g' : DataFlow} {i : InstId} (h : g.removeInst i = .ok g') :
    ∃ inst, g.inst? i = some inst ∧ Shrunk g g' i ∧
      g'.epoch = g.epoch + (if inst.op.isTerminator then 1 else 0) ∧
      (∀ {w o}, g'.origin? w = some o → ∀ j, g'.Uses w j ↔ g.Uses w j ∧ ¬ (w ∈ inst.args ∧ j = i)) ∧
      ∀ c j, j ∈ g'.usersOfBlock c ↔ j ∈ g.usersOfBlock c ∧ ¬ (c ∈ inst.blocks ∧ j = i) := by
  obtain ⟨g₁, hdetach, hins, hpar, himp, hbu, hep, hval⟩ : ∃ g₁ : DataFlow, g₁.detach i = .ok g' ∧
      g₁.insts = g.insts ∧ g₁.params = g.params ∧ g₁.imports = g.imports ∧
      g₁.blockUsers = g.blockUsers ∧ g₁.epoch = g.epoch ∧
      ∀ w, g₁.values.get? w = if g.result? i = some w then none else g.values.get? w := by
    rcases removeInst_parts h with ⟨hr, hdetach⟩ | ⟨v, e, values, hr, -, hvalues, hdetach⟩
    · exact ⟨g, hdetach, rfl, rfl, rfl, rfl, rfl, fun w => by simp [hr]⟩
    · obtain ⟨-, -, hget⟩ := Table.remove_eq_ok hvalues
      obtain ⟨hn₁, hn₂, hn₃, hn₄, hn₅, hn₆⟩ := clearName_spec { g with values } v
      refine ⟨_, hdetach, hn₁, hn₃, hn₄, hn₅, hn₆, fun w => ?_⟩
      rw [hn₂]
      show values.get? w = _
      rw [hget, hr]
      simp only [Option.some.injEq, eq_comm]
  obtain ⟨inst, hd⟩ := detach_spec hdetach
  have hi : g.inst? i = some inst := (inst?_of_insts hins i).symm.trans hd.there
  have horig : ∀ w, g'.origin? w = if g.result? i = some w then none else g.origin? w := by
    intro w
    rw [hd.origins, DataFlow.origin?, hval]
    split <;> rfl
  refine ⟨inst, hi, ⟨?_, ?_, horig, hd.params.trans hpar, hd.imports.trans himp, fun hterm => ?_,
    ?_⟩, ?_, ?_, ?_⟩
  · intro j
    rw [DataFlow.inst?, hd.insts, hins]
    split <;> rfl
  · intro j
    rw [DataFlow.result?, hd.insts, hins]
    split <;> rfl
  · rw [isTerminator_of_inst hi] at hterm
    rw [hd.epoch, hep, hterm]
    rfl
  · rw [← hins]
    exact hd.size
  · rw [hd.epoch, hep]
  · intro w o hw j
    have hkept : g₁.Uses w j ↔ g.Uses w j := by
      rw [uses_iff, uses_iff, hval, if_neg]
      intro hr
      rw [horig, if_pos hr] at hw
      cases hw
    rw [hd.users, hkept]
  · intro c j
    rw [hd.blockUsers, usersOfBlock_of_blockUsers hbu]

theorem removeInst_ok {g : DataFlow} (hg : g.Exact) {i : InstId} {inst : Inst}
    (hi : g.inst? i = some inst)
    (hfree : ∀ v, g.result? i = some v → ∀ j jnst, g.inst? j = some jnst → v ∉ jnst.args) :
    ∃ g', g.removeInst i = .ok g' ∧ g'.Exact ∧ Shrunk g g' i := by
  obtain ⟨g', hrun⟩ : ∃ g', g.removeInst i = .ok g' := by
    unfold removeInst
    cases hr : g.result? i with
    | none => exact detach_ok hi
    | some v =>
      obtain ⟨ty, ho, -⟩ := hg.result_origin hr
      obtain ⟨used, hused, hiff⟩ := hg.hasUsers_ok ho
      obtain ⟨e, he, -⟩ := origin?_eq_some.1 ho
      obtain ⟨values, hvalues⟩ := Table.remove_ok he
      cases used with
      | true =>
        obtain ⟨j, jnst, hj, hv⟩ := hiff.1 rfl
        exact absurd hv (hfree v hr j jnst hj)
      | false =>
        have hi' : (({ g with values } : DataFlow).clearName v).2.inst? i = some inst :=
          (inst?_of_insts (clearName_spec { g with values } v).1 i).trans hi
        simp only [hused, hvalues, ok_bind]
        exact detach_ok hi'
  obtain ⟨jnst, hj, hshrunk, -, huses, hblocks⟩ := removeInst_shrinks hrun
  cases hi.symm.trans hj
  exact ⟨g', hrun, hshrunk.exact hg hi hfree huses hblocks, hshrunk⟩

def members (g : DataFlow) : List (InstId × Inst) := g.insts.toList.map fun p => (p.1, p.2.inst)

def tally (w : Inst → Nat) (g : DataFlow) : Nat := g.insts.values.foldl (fun n e => n + w e.inst) 0

variable {g g' : DataFlow} {i : InstId} {inst : Inst}

theorem mem_members : (i, inst) ∈ g.members ↔ g.inst? i = some inst := by
  rw [inst?_eq_some, members, List.mem_map]
  constructor
  · rintro ⟨⟨j, e⟩, hmem, he⟩
    cases he
    exact ⟨e, Table.mem_toList.1 hmem, rfl⟩
  · rintro ⟨e, he, rfl⟩
    exact ⟨(i, e), Table.mem_toList.2 he, rfl⟩

theorem mem_keys : i ∈ g.insts.keys ↔ ∃ inst, g.inst? i = some inst := by
  rw [Table.keys, List.mem_map]
  constructor
  · rintro ⟨⟨j, e⟩, hmem, rfl⟩
    exact ⟨e.inst, inst?_eq_some.2 ⟨e, Table.mem_toList.1 hmem, rfl⟩⟩
  · rintro ⟨inst, hi⟩
    obtain ⟨e, he, -⟩ := inst?_eq_some.1 hi
    exact ⟨(i, e), Table.mem_toList.2 he, rfl⟩

theorem members_nodup (g : DataFlow) : g.members.Nodup := by
  have hkeys : g.members.map Prod.fst = g.insts.keys := by
    rw [members, List.map_map]
    rfl
  have hnodup : (g.members.map Prod.fst).Nodup := by
    rw [hkeys]
    exact Table.keys_nodup _
  exact (List.pairwise_map.1 hnodup).imp fun hne he => hne (congrArg Prod.fst he)

theorem tally_eq (w : Inst → Nat) (g : DataFlow) :
    g.tally w = g.members.foldl (fun n p => n + w p.2) 0 := by
  rw [tally, members, Table.values, List.foldl_map, List.foldl_map]

theorem Shrunk.members (h : Shrunk g g' i) (hi : g.inst? i = some inst) :
    g.members.Perm ((i, inst) :: g'.members) := by
  have hgone : (i, inst) ∉ g'.members := fun hmem => by
    rw [mem_members, h.inst?, if_pos rfl] at hmem
    cases hmem
  refine (List.perm_ext_iff_of_nodup g.members_nodup (List.nodup_cons.2 ⟨hgone,
    g'.members_nodup⟩)).2 ?_
  rintro ⟨j, jnst⟩
  rw [List.mem_cons, mem_members, mem_members, h.inst?]
  by_cases hj : j = i
  · subst hj
    rw [if_pos rfl, hi]
    simp [eq_comm]
  · simp [hj]

theorem Shrunk.tally (h : Shrunk g g' i) (hi : g.inst? i = some inst) (w : Inst → Nat) :
    g'.tally w + w inst = g.tally w := by
  have hsum : ∀ (l : List (InstId × Inst)) (n : Nat), l.foldl (fun n p => n + w p.2) n =
      l.foldl (fun n p => n + w p.2) 0 + n := by
    intro l
    induction l with
    | nil => simp
    | cons p l ih =>
      intro n
      rw [List.foldl_cons, List.foldl_cons, ih (n + w p.2), ih (0 + w p.2)]
      omega
  rw [tally_eq, tally_eq, (h.members hi).foldl_eq' (fun _ _ _ _ _ => by omega) 0, List.foldl_cons,
    hsum _ (0 + w inst)]
  omega

end MiddleEnd.DataFlow
