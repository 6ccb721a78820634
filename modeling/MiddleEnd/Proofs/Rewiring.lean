import MiddleEnd.Proofs.UseLists

/-!
# Edits of operands

Setting an operand, replacing a value wherever it is used, and adding an edge to a phi go through
whenever what they refer to is there, and do to each instruction what their names say.
-/

namespace MiddleEnd.DataFlow

/-- The same graph but for the users of values. -/
structure UsersOnly (g g' : DataFlow) : Prop where
  insts : g'.insts = g.insts
  origins : ∀ v, g'.origin? v = g.origin? v
  blockUsers : g'.blockUsers = g.blockUsers
  params : g'.params = g.params
  imports : g'.imports = g.imports
  epoch : g'.epoch = g.epoch

theorem UsersOnly.refl (g : DataFlow) : UsersOnly g g := ⟨rfl, fun _ => rfl, rfl, rfl, rfl, rfl⟩

theorem UsersOnly.trans {g g' g'' : DataFlow} (h : UsersOnly g g') (h' : UsersOnly g' g'') :
    UsersOnly g g'' :=
  ⟨h'.insts.trans h.insts, fun v => (h'.origins v).trans (h.origins v),
    h'.blockUsers.trans h.blockUsers, h'.params.trans h.params, h'.imports.trans h.imports,
    h'.epoch.trans h.epoch⟩

theorem usersOnly_update (g : DataFlow) (v : ValueId) (f : KeySet InstId → KeySet InstId) :
    UsersOnly g { g with values := g.values.update v fun e => { e with users := f e.users } } where
  insts := rfl
  origins w := by
    unfold origin?
    rw [Table.get?_update]
    split
    · rename_i hw
      subst hw
      cases g.values.get? w <;> rfl
    · rfl
  blockUsers := rfl
  params := rfl
  imports := rfl
  epoch := rfl

theorem linkUse_ok {g : DataFlow} {v : ValueId} {o : ValueDef} (h : g.origin? v = some o)
    (fault : Fault) (i : InstId) :
    ∃ g', g.linkUse fault v i = .ok g' ∧ UsersOnly g g' ∧
      ∀ w j, g'.Uses w j ↔ g.Uses w j ∨ (w = v ∧ j = i) := by
  obtain ⟨e, he, _⟩ := origin?_eq_some.1 h
  refine ⟨_, by rw [linkUse, if_pos (Table.contains_iff.2 ⟨e, he⟩)],
    usersOnly_update g v (·.insert i), ?_⟩
  intro w j
  rw [uses_iff, uses_iff]
  simp only [Table.get?_update]
  by_cases hw : w = v
  · subst hw
    simp only [if_pos, he, Option.map_some, Option.some.injEq, true_and]
    constructor
    · rintro ⟨_, rfl, hj⟩
      rcases KeySet.mem_insert.1 hj with hj | hj
      · exact .inr hj
      · exact .inl ⟨e, rfl, hj⟩
    · rintro (⟨_, rfl, hj⟩ | hj)
      · exact ⟨_, rfl, KeySet.mem_insert.2 (.inr hj)⟩
      · exact ⟨_, rfl, KeySet.mem_insert.2 (.inl hj)⟩
  · simp [hw]

theorem linkUse_of_ok {g g' : DataFlow} {fault : Fault} {v : ValueId} {i : InstId}
    (h : g.linkUse fault v i = .ok g') :
    ∃ o, g.origin? v = some o := by
  unfold linkUse at h
  split at h
  · rename_i hv
    obtain ⟨e, he⟩ := Table.contains_iff.1 hv
    exact ⟨e.origin, origin?_eq_some.2 ⟨e, he, rfl⟩⟩
  · cases h

theorem usersOnly_of_linkUse {g g' : DataFlow} {fault : Fault} {v : ValueId} {i : InstId}
    (h : g.linkUse fault v i = .ok g') :
    UsersOnly g g' := by
  obtain ⟨o, ho⟩ := linkUse_of_ok h
  obtain ⟨g'', hg'', hsame, -⟩ := linkUse_ok ho fault i
  rw [h] at hg''
  cases hg''
  exact hsame

theorem unlinkUse_spec (g : DataFlow) (v : ValueId) (i : InstId) :
    UsersOnly g (g.unlinkUse v i) ∧ ∀ w j, (g.unlinkUse v i).Uses w j ↔ g.Uses w j ∧
    ¬ (w = v ∧ j = i) := by
  refine ⟨usersOnly_update g v (·.erase i), fun w j => ?_⟩
  rw [uses_iff, uses_iff]
  simp only [unlinkUse, Table.get?_update]
  by_cases hw : w = v
  · subst hw
    simp only [if_pos, Option.map_eq_some_iff, true_and]
    constructor
    · rintro ⟨_, ⟨e, he, rfl⟩, hj⟩
      exact ⟨⟨e, he, (KeySet.mem_erase.1 hj).1⟩, (KeySet.mem_erase.1 hj).2⟩
    · rintro ⟨⟨e, he, hj⟩, hne⟩
      exact ⟨_, ⟨e, he, rfl⟩, KeySet.mem_erase.2 ⟨hj, hne⟩⟩
  · simp [hw]

theorem mem_usersOfBlock_linkBlock (g : DataFlow) (b c : BlockId) (i j : InstId) :
    j ∈ (g.linkBlock b i).usersOfBlock c ↔ j ∈ g.usersOfBlock c ∨ (c = b ∧ j = i) := by
  simp only [usersOfBlock, linkBlock, Dict.get?_insert]
  by_cases hc : b = c
  · subst hc
    simp only [if_pos, Option.getD_some, KeySet.mem_insert, true_and]
    exact Or.comm
  · have : c ≠ b := fun e => hc e.symm
    simp [hc, this]

theorem mem_usersOfBlock_unlinkBlock (g : DataFlow) (b c : BlockId) (i j : InstId) :
    j ∈ (g.unlinkBlock b i).usersOfBlock c ↔ j ∈ g.usersOfBlock c ∧ ¬ (c = b ∧ j = i) := by
  unfold unlinkBlock
  cases hb : g.blockUsers.get? b with
  | none =>
    constructor
    · intro hj
      refine ⟨hj, ?_⟩
      rintro ⟨rfl, -⟩
      rw [usersOfBlock, hb] at hj
      exact KeySet.not_mem_emptyc hj
    · exact fun hj => hj.1
  | some us =>
    simp only [usersOfBlock, Dict.get?_insert]
    by_cases hc : b = c
    · subst hc
      simp [hb]
    · have : c ≠ b := fun e => hc e.symm
      simp [hc, this]

theorem putInst_patched (g : DataFlow) (i : InstId) (inst : Inst) :
    Patched g (g.putInst i inst) i inst :=
  ⟨rfl, fun _ => rfl, rfl, rfl, rfl⟩

theorem Patched.usersOnly {g g' g'' : DataFlow} {i : InstId} {inst : Inst} (h : Patched g g' i inst)
    (h' : UsersOnly g' g'') : Patched g g'' i inst :=
  ⟨h'.insts.trans h.insts, fun v => (h'.origins v).trans (h.origins v), h'.params.trans h.params,
    h'.imports.trans h.imports, h'.epoch.trans h.epoch⟩

theorem inst?_of_insts {g g' : DataFlow} (h : g'.insts = g.insts) (i : InstId) :
    g'.inst? i = g.inst? i := by
  rw [inst?, inst?, h]

theorem usersOfBlock_of_blockUsers {g g' : DataFlow} (h : g'.blockUsers = g.blockUsers)
    (b : BlockId) :
    g'.usersOfBlock b = g.usersOfBlock b := by
  rw [usersOfBlock, usersOfBlock, h]

theorem Patched.exact {g g' : DataFlow} {i : InstId} {inst old : Inst} (h : Patched g g' i inst)
    (hg : g.Exact) (hi : g.inst? i = some old) (hb : inst.blocks = old.blocks)
    (hbu : g'.blockUsers = g.blockUsers)
    (hu : ∀ v j, g'.Uses v j ↔ if j = i then v ∈ inst.args else g.Uses v j)
    (hargs : ∀ v ∈ inst.args, ∃ o, g.origin? v = some o)
    (hphi : ∀ op args preds, inst = .phi op args preds → args.length = preds.length) :
    g'.Exact := by
  refine Relinked.exact ⟨h.inst? hi, h.origins, fun _ j => hu _ j, ?_⟩ (h.rewired hi) hg hargs hphi
  intro b j
  rw [usersOfBlock_of_blockUsers hbu]
  by_cases hj : j = i
  · subst hj
    rw [if_pos rfl, hg.blockUsers_iff, hb]
    exact ⟨fun ⟨_, h, hb⟩ => by rw [hi] at h; cases h; exact hb, fun h => ⟨old, hi, h⟩⟩
  · rw [if_neg hj]

theorem Exact.uses_iff_mem {g : DataFlow} (hg : g.Exact) {i : InstId} {inst : Inst}
    (hi : g.inst? i = some inst) (v : ValueId) : g.Uses v i ↔ v ∈ inst.args := by
  constructor
  · intro h
    obtain ⟨e, he, hm⟩ := uses_iff.1 h
    obtain ⟨_, hj, hv⟩ := (hg.users_iff (origin?_eq_some.2 ⟨e, he, rfl⟩) i).1 h
    rw [hi] at hj
    cases hj
    exact hv
  · intro hv
    obtain ⟨o, ho⟩ := hg.operand hi hv
    exact (hg.users_iff ho i).2 ⟨inst, hi, hv⟩

theorem phi_lengths_setArg {inst : Inst} {n : Nat} {v : ValueId}
    (h : ∀ op args preds, inst = .phi op args preds → args.length = preds.length) :
    ∀ op args preds, inst.setArg n v = .phi op args preds → args.length = preds.length := by
  intro op args preds he
  unfold Inst.setArg at he
  split at he
  case h_4 op' args' preds' n' =>
    cases he
    rw [List.length_set]
    exact h _ _ _ rfl
  case h_7 => exact h _ _ _ he
  all_goals cases he

theorem setArg_ok {g : DataFlow} (hg : g.Exact) {i : InstId} {inst : Inst} {n : Nat} {v : ValueId}
    {o : ValueDef} (hi : g.inst? i = some inst) (hn : n < inst.args.length)
    (hv : g.origin? v = some o) :
    ∃ g', g.setArg i n v = .ok g' ∧ g'.Exact ∧
      Rewired g g' fun j jnst => if j = i then inst.setArg n v else jnst := by
  have hargs : (inst.setArg n v).args = inst.args.set n v := Inst.args_setArg v hn
  obtain ⟨old, hold⟩ : ∃ old, inst.args[n]? = some old := ⟨_, List.getElem?_eq_getElem hn⟩
  have hset : ∀ w, w ∈ inst.args.set n v → w = v ∨ w ∈ inst.args := fun w hw =>
    (List.mem_or_eq_of_mem_set hw).symm
  have hvin : v ∈ inst.args.set n v :=
    List.mem_iff_getElem?.2 ⟨n, by rw [List.getElem?_set_self hn]⟩
  have hkeep : ∀ w, w ∈ inst.args → w ≠ old → w ∈ inst.args.set n v := by
    intro w hw hne
    obtain ⟨m, hm⟩ := List.mem_iff_getElem?.1 hw
    refine List.mem_iff_getElem?.2 ⟨m, ?_⟩
    have hmn : n ≠ m := by
      rintro rfl
      rw [hold] at hm
      exact hne (Option.some.inj hm).symm
    rw [List.getElem?_set_ne hmn, hm]
  -- The graph with the old operand struck off, unless it is still one of the operands.
  obtain ⟨g₁, hg₁, hp₁, hu₁, hbu₁⟩ :
      ∃ g₁, (if old ∈ (inst.setArg n v).args then g.putInst i (inst.setArg n v)
      else (g.putInst i (inst.setArg n v)).unlinkUse old i) = g₁ ∧
        Patched g g₁ i (inst.setArg n v) ∧
      (∀ w j, g₁.Uses w j ↔ g.Uses w j ∧ ¬ (w = old ∧ j = i ∧ old ∉ (inst.setArg n v).args)) ∧
      g₁.blockUsers = g.blockUsers := by
    by_cases ho : old ∈ (inst.setArg n v).args
    · refine ⟨_, rfl, ?_, ?_, ?_⟩
      · rw [if_pos ho]; exact putInst_patched g i _
      · intro w j
        rw [if_pos ho]
        simp only [ho, not_true, and_false, not_false_iff, and_true]
        rfl
      · rw [if_pos ho]; rfl
    · obtain ⟨hsame, huses⟩ := unlinkUse_spec (g.putInst i (inst.setArg n v)) old i
      refine ⟨_, rfl, ?_, ?_, ?_⟩
      · rw [if_neg ho]; exact (putInst_patched g i _).usersOnly hsame
      · intro w j
        rw [if_neg ho, huses]
        simp only [ho, not_false_iff, and_true]
        rfl
      · rw [if_neg ho]; exact hsame.blockUsers
  have hv₁ : g₁.origin? v = some o := by rw [hp₁.origins]; exact hv
  obtain ⟨g₂, hg₂, hs₂, hu₂⟩ := linkUse_ok hv₁ (.valueAbsent v) i
  have hp₂ := hp₁.usersOnly hs₂
  refine ⟨g₂, ?_, ?_, hp₂.rewired hi⟩
  · unfold setArg
    rw [inst_eq_ok.2 hi, ok_bind, Checked.nth, hold, ofOption_some, ok_bind]
    simp only [hg₁]
    exact hg₂
  · refine hp₂.exact hg hi (Inst.blocks_setArg _ _ _) (hs₂.blockUsers.trans hbu₁) ?_ ?_ ?_
    · intro w j
      rw [hu₂, hu₁, hargs]
      by_cases hj : j = i
      · subst hj
        rw [if_pos rfl, hg.uses_iff_mem hi]
        constructor
        · rintro (⟨hw, hnot⟩ | ⟨rfl, -⟩)
          · by_cases hwo : w = old
            · subst hwo
              exact Classical.byContradiction fun hc => hnot ⟨rfl, rfl, hc⟩
            · exact hkeep w hw hwo
          · exact hvin
        · intro hw
          rcases hset w hw with rfl | hwi
          · exact .inr ⟨rfl, rfl⟩
          · refine .inl ⟨hwi, ?_⟩
            rintro ⟨rfl, -, hno⟩
            exact hno hw
      · rw [if_neg hj]
        simp [hj]
    · intro w hw
      rw [hargs] at hw
      rcases hset w hw with rfl | hwi
      · exact ⟨o, hv⟩
      · exact hg.operand hi hwi
    · exact phi_lengths_setArg fun op args preds he => hg.phi_lengths (he ▸ hi)

def swap (old new v : ValueId) : ValueId := if v = old then new else v

theorem swap_self (old v : ValueId) : swap old old v = v := by
  unfold swap
  split
  · rename_i h
    exact h.symm
  · rfl

theorem swap_of_ne {old new v : ValueId} (h : v ≠ old) : swap old new v = v := if_neg h

theorem mem_map_swap {old new v : ValueId} {xs : List ValueId} (hne : old ≠ new) (ho : old ∈ xs) :
    v ∈ xs.map (swap old new) ↔ (v ∈ xs ∧ v ≠ old) ∨ v = new := by
  rw [List.mem_map]
  constructor
  · rintro ⟨w, hw, rfl⟩
    by_cases h : w = old
    · exact .inr (if_pos h)
    · rw [swap_of_ne h]
      exact .inl ⟨hw, h⟩
  · rintro (⟨hv, h⟩ | rfl)
    · exact ⟨v, hv, swap_of_ne h⟩
    · exact ⟨old, ho, if_pos rfl⟩

theorem phi_lengths_mapArgs {inst : Inst} {σ : ValueId → ValueId}
    (h : ∀ op args preds, inst = .phi op args preds → args.length = preds.length) :
    ∀ op args preds, inst.mapArgs σ = .phi op args preds → args.length = preds.length := by
  intro op args preds he
  cases inst with
  | phi op' args' preds' =>
    cases he
    rw [List.length_map]
    exact h _ _ _ rfl
  | _ => cases he

theorem replaceWithin_ok {g : DataFlow} (hg : g.Exact) {i : InstId} {inst : Inst}
    {old new : ValueId} {o : ValueDef} (hne : old ≠ new) (hi : g.inst? i = some inst)
    (hold : old ∈ inst.args) (hv : g.origin? new = some o) :
    ∃ n g', g.replaceWithin old new i = .ok (n, g') ∧ g'.Exact ∧
      Rewired g g' fun j jnst => if j = i then inst.mapArgs (swap old new) else jnst := by
  have hp₀ := putInst_patched g i (inst.mapArgs (swap old new))
  obtain ⟨hs₁, hu₁⟩ := unlinkUse_spec (g.putInst i (inst.mapArgs (swap old new))) old i
  have hp₁ := hp₀.usersOnly hs₁
  have hv₁ : ((g.putInst i (inst.mapArgs (swap old new))).unlinkUse old i).origin?
      new = some o := by
    rw [hp₁.origins]
    exact hv
  obtain ⟨g₂, hg₂, hs₂, hu₂⟩ := linkUse_ok hv₁ (.valueAbsent new) i
  have hp₂ := hp₁.usersOnly hs₂
  have hcount : inst.args.count old ≠ 0 := by
    rw [Ne, List.count_eq_zero]
    exact fun h => h hold
  refine ⟨inst.args.count old, g₂, ?_, ?_, hp₂.rewired hi⟩
  · unfold replaceWithin
    rw [if_neg hne, inst_eq_ok.2 hi, ok_bind]
    simp only [if_neg hcount]
    have hswap : (fun v => if v = old then new else v) = swap old new := rfl
    rw [hswap, hg₂, ok_bind]
    rfl
  · refine hp₂.exact hg hi (Inst.blocks_mapArgs _ _) (hs₂.blockUsers.trans hs₁.blockUsers) ?_ ?_ ?_
    · intro w j
      rw [hu₂, hu₁, Inst.args_mapArgs]
      have hput : (g.putInst i (inst.mapArgs (swap old new))).Uses w j ↔ g.Uses w j := Iff.rfl
      rw [hput]
      by_cases hj : j = i
      · subst hj
        rw [if_pos rfl, mem_map_swap hne hold, hg.uses_iff_mem hi]
        simp
      · rw [if_neg hj]
        simp [hj]
    · intro w hw
      rw [Inst.args_mapArgs, mem_map_swap hne hold] at hw
      rcases hw with ⟨hw, -⟩ | rfl
      · exact hg.operand hi hw
      · exact ⟨o, hv⟩
    · exact phi_lengths_mapArgs fun op args preds he => hg.phi_lengths (he ▸ hi)

theorem replaceUse_ok {g : DataFlow} (hg : g.Exact) {old new : ValueId} {o o' : ValueDef}
    (hold : g.origin? old = some o) (hnew : g.origin? new = some o') :
    ∃ n g', g.replaceUse old new = .ok (n, g') ∧ g'.Exact ∧
      Rewired g g' fun _ inst => inst.mapArgs (swap old new) := by
  unfold replaceUse
  by_cases hne : old = new
  · subst hne
    refine ⟨0, g, by rw [if_pos rfl]; rfl, hg, (Rewired.refl g).congr ?_⟩
    intro i inst _
    exact (Inst.mapArgs_eq_self fun v _ => swap_self old v).symm
  obtain ⟨us, hus, hmem⟩ := users_ok hold
  have hfold := foldlM_yields (l := us.toList) (b := ((0 : Nat), g))
    (f := fun (p : Nat × DataFlow) i => do
      let r ← p.2.replaceWithin old new i
      return (p.1 + r.1, r.2))
    (fun pre p => p.2.Exact ∧
      Rewired g p.2 fun j jnst => if j ∈ pre then jnst.mapArgs (swap old new) else jnst)
    ⟨hg, (Rewired.refl g).congr fun i inst _ => by rw [if_neg List.not_mem_nil]⟩ ?_
  · obtain ⟨⟨n, g'⟩, hd, hE, hR⟩ := hfold
    refine ⟨n, g', ?_, hE, hR.congr ?_⟩
    · rw [if_neg hne, hus, ok_bind]
      exact hd
    · intro i inst hi
      by_cases hin : i ∈ us.toList
      · rw [if_pos hin]
      · rw [if_neg hin]
        refine (Inst.mapArgs_eq_self fun v hv => swap_of_ne ?_).symm
        rintro rfl
        exact hin ((hmem i).2 ((hg.uses_iff_mem hi v).2 hv))
  · rintro pre i post ⟨n, h⟩ hsplit ⟨hE, hR⟩
    have hnodup : (pre ++ i :: post).Nodup := hsplit ▸ us.nodup
    have hpre : i ∉ pre := fun hm =>
      (List.nodup_append.1 hnodup).2.2 i hm i List.mem_cons_self rfl
    have hiu : i ∈ us := by
      rw [KeySet.mem_def, hsplit]
      exact List.mem_append_right _ List.mem_cons_self
    obtain ⟨inst, hi, harg⟩ := (hg.users_iff hold i).1 ((hmem i).1 hiu)
    have hi' : h.inst? i = some inst := by rw [hR.inst?, hi, Option.map_some, if_neg hpre]
    obtain ⟨m, g', hg', hE', hR'⟩ := replaceWithin_ok hE hne hi' harg (hR.origin? hnew)
    refine ⟨(n + m, g'), by simp only [hg', ok_bind, pure_eq_ok], hE', (hR.trans hR').congr ?_⟩
    intro j jnst hj
    by_cases hji : j = i
    · subst hji
      rw [hi] at hj
      cases hj
      simp
    · simp [hji]

theorem replaceUse_induct {P : DataFlow → Prop} {g g' : DataFlow} {old new : ValueId} {n : Nat}
    (h : g.replaceUse old new = .ok (n, g')) (start : P g)
    (step : ∀ {c c' i m}, P c → c.replaceWithin old new i = .ok (m, c') → P c') : P g' := by
  unfold replaceUse at h
  split at h
  · cases h
    exact start
  obtain ⟨us, -, h⟩ := bind_eq_ok.1 h
  refine foldlM_ok_induct (fun _ (p : Nat × DataFlow) => P p.2) h start ?_
  rintro pre i post ⟨k, c⟩ c' - hc hstep
  obtain ⟨⟨m, d⟩, hd, hstep⟩ := bind_eq_ok.1 hstep
  cases hstep
  exact step hc hd

theorem find?_some {g : DataFlow} {o : ValueDef} {v : ValueId} (h : g.find? o = some v) :
    g.origin? v = some o := by
  obtain ⟨⟨w, e⟩, hf, rfl⟩ := Option.map_eq_some_iff.1 h
  have he : e.origin = o := by simpa using List.find?_some hf
  exact origin?_eq_some.2 ⟨e, Table.mem_toList.1 (List.mem_of_find?_eq_some hf), he⟩

theorem find?_none {g : DataFlow} {o : ValueDef} (h : g.find? o = none) (v : ValueId) :
    g.origin? v ≠ some o := by
  intro hv
  obtain ⟨e, he, ho⟩ := origin?_eq_some.1 hv
  have hn := List.find?_eq_none.1 (Option.map_eq_none_iff.1 h) (v, e) (Table.mem_toList.2 he)
  exact hn (by simpa using ho)

theorem origin?_addValue (g : DataFlow) (o : ValueDef) (v : ValueId) :
    (g.addValue o).2.origin? v = if v.index = g.values.bound then some o else g.origin? v := by
  have h : (g.addValue o).2.origin? v = ((g.values.add { origin := o }).2.get? v).map (·.origin) :=
    rfl
  rw [h, Table.get?_add]
  by_cases hv : Key.index v = g.values.bound
  · rw [if_pos hv, if_pos (show v.index = _ from hv)]
    rfl
  · rw [if_neg hv, if_neg (show ¬ v.index = _ from hv)]
    rfl

theorem uses_addValue (g : DataFlow) (o : ValueDef) (v : ValueId) (i : InstId) :
    (g.addValue o).2.Uses v i ↔ g.Uses v i := by
  have h : ∀ e, (g.addValue o).2.values.get? v = some e ↔
      (g.values.add { origin := o }).2.get? v = some e :=
    fun _ => Iff.rfl
  simp only [uses_iff, h, Table.get?_add]
  by_cases hv : Key.index v = g.values.bound
  · have hn : g.values.get? v = none := Table.get?_ge_bound (Nat.le_of_eq hv.symm)
    constructor
    · rintro ⟨e, he, hm⟩
      rw [if_pos hv] at he
      cases he
      exact absurd hm KeySet.not_mem_emptyc
    · rintro ⟨e, he, -⟩
      rw [hn] at he
      cases he
  · simp only [if_neg hv]

theorem origin?_lt_bound {g : DataFlow} {v : ValueId} {o : ValueDef} (h : g.origin? v = some o) :
    v.index < g.values.bound := by
  obtain ⟨e, he, -⟩ := origin?_eq_some.1 h
  exact Table.get?_lt_bound he

theorem origin?_addValue_of_some {g : DataFlow} (o : ValueDef) {v : ValueId} {o' : ValueDef}
    (h : g.origin? v = some o') : (g.addValue o).2.origin? v = some o' := by
  rw [origin?_addValue, if_neg (Nat.ne_of_lt (origin?_lt_bound h)), h]

theorem origin?_of_addValue {g : DataFlow} {o o' : ValueDef} {v : ValueId}
    (h : (g.addValue o).2.origin? v = some o') :
    g.origin? v = some o' ∨ (v.index = g.values.bound ∧ o' = o) := by
  rw [origin?_addValue] at h
  split at h
  · exact .inr ⟨‹_›, (Option.some.inj h).symm⟩
  · exact .inl h

/-- A new value that is not a result keeps use lists exact. A constant may only be added if it was
not there. -/
theorem Exact.addValue {g : DataFlow} (hg : g.Exact) {o : ValueDef} (hr : ∀ ty i, o ≠ .result ty i)
    (hs : o.isConst = true ∨ o.isUndef = true → g.find? o = none) : (g.addValue o).2.Exact where
  users_iff := by
    intro v o' hv i
    rw [uses_addValue]
    by_cases hv' : ∃ o'', g.origin? v = some o''
    · obtain ⟨o'', ho''⟩ := hv'
      exact hg.users_iff ho'' i
    · constructor
      · intro hu
        obtain ⟨e, he, -⟩ := uses_iff.1 hu
        exact absurd ⟨_, origin?_eq_some.2 ⟨e, he, rfl⟩⟩ hv'
      · rintro ⟨inst, hi, harg⟩
        exact absurd (hg.operand hi harg) hv'
  operand := by
    intro i inst v hi hv
    obtain ⟨o', ho'⟩ := hg.operand hi hv
    exact ⟨o', origin?_addValue_of_some o ho'⟩
  blockUsers_iff := hg.blockUsers_iff
  phi_lengths := hg.phi_lengths
  result_origin := by
    intro i v hi
    obtain ⟨ty, h, hn⟩ := hg.result_origin hi
    exact ⟨ty, origin?_addValue_of_some o h, hn⟩
  origin_result := by
    intro v ty i hv
    rcases origin?_of_addValue hv with hv | ⟨-, ho⟩
    · exact hg.origin_result hv
    · exact absurd ho.symm (hr ty i)
  shared_unique := by
    intro v w o' hv hw ho'
    rcases origin?_of_addValue hv with hv' | ⟨hv', rfl⟩
    · rcases origin?_of_addValue hw with hw' | ⟨-, rfl⟩
      · exact hg.shared_unique hv' hw' ho'
      · exact absurd hv' (find?_none (hs ho') v)
    · rcases origin?_of_addValue hw with hw' | ⟨hw', -⟩
      · exact absurd hw' (find?_none (hs ho') w)
      · exact Key.index_inj (hv'.trans hw'.symm)
  param_origin := by
    intro v hv
    obtain ⟨ty, p, h⟩ := hg.param_origin hv
    exact ⟨ty, p, origin?_addValue_of_some o h⟩
  params_nodup := hg.params_nodup

theorem shared_ok {g : DataFlow} (hg : g.Exact) {o : ValueDef}
    (ho : o.isConst = true ∨ o.isUndef = true) :
    ∃ v g', g.shared o = (v, g') ∧ g'.origin? v = some o ∧ g'.Exact ∧
      Rewired g g' fun _ inst => inst := by
  unfold shared
  cases hf : g.find? o with
  | some v => exact ⟨v, g, rfl, find?_some hf, hg, Rewired.refl g⟩
  | none =>
    have hr : ∀ ty i, o ≠ .result ty i := by
      rintro ty i rfl
      rcases ho with ho | ho <;> cases ho
    have hsame : ∀ i, (g.addValue o).2.inst? i = g.inst? i := fun _ => rfl
    refine ⟨(g.addValue o).1, (g.addValue o).2, rfl, ?_, hg.addValue hr fun _ => hf, ?_⟩
    · rw [origin?_addValue, if_pos]
      rfl
    · exact
        { inst? := fun i => by rw [hsame]; simp
          result? := fun _ => rfl
          origin? := origin?_addValue_of_some o
          added := by
            intro v o' hv
            rcases origin?_of_addValue hv with hv | ⟨-, rfl⟩
            · exact .inl hv
            · exact .inr ho
          params := rfl
          imports := rfl
          epoch := rfl
          size := rfl
          bound := rfl }

theorem phiLists_ok {g : DataFlow} {i : InstId} {op : Opcode} {args : List ValueId}
    {preds : List BlockId} (h : g.inst? i = some (.phi op args preds)) :
    g.phiLists i = .ok (op, args, preds) := by
  rw [phiLists, inst_eq_ok.2 h, ok_bind]

theorem phiLists_of_ok {g : DataFlow} {i : InstId} {op : Opcode} {args : List ValueId}
    {preds : List BlockId} (h : g.phiLists i = .ok (op, args, preds)) :
    g.inst? i = some (.phi op args preds) := by
  obtain ⟨inst, hinst, h⟩ := bind_eq_ok.1 h
  cases inst with
  | phi op' args' preds' =>
    cases h
    exact inst_eq_ok.1 hinst
  | _ => cases h

theorem addIncoming_ok {g : DataFlow} (hg : g.Exact) {i : InstId} {op : Opcode}
    {args : List ValueId} {preds : List BlockId} {v : ValueId} {o : ValueDef} (b : BlockId)
    (hi : g.inst? i = some (.phi op args preds)) (hv : g.origin? v = some o) :
    ∃ g', g.addIncoming i v b = .ok g' ∧ g'.Exact ∧
      Rewired g g' fun j jnst => if j = i then .phi op (args ++ [v]) (preds ++ [b]) else jnst := by
  have hp₀ := putInst_patched g i (.phi op (args ++ [v]) (preds ++ [b]))
  have hv₀ : (g.putInst i (.phi op (args ++ [v]) (preds ++ [b]))).origin? v = some o := by
    rw [hp₀.origins]
    exact hv
  obtain ⟨g₁, hg₁, hs₁, hu₁⟩ := linkUse_ok hv₀ (.valueAbsent v) i
  have hp₁ := hp₀.usersOnly hs₁
  have hp₂ : Patched g (g₁.linkBlock b i) i (.phi op (args ++ [v]) (preds ++ [b])) :=
    ⟨hp₁.insts, hp₁.origins, hp₁.params, hp₁.imports, hp₁.epoch⟩
  refine ⟨g₁.linkBlock b i, ?_, ?_, hp₂.rewired hi⟩
  · unfold addIncoming
    rw [phiLists_ok hi, ok_bind]
    simp only [hg₁, ok_bind, pure_eq_ok]
  refine Relinked.exact ⟨hp₂.inst? hi, hp₂.origins, ?_, ?_⟩ (hp₂.rewired hi) hg ?_ ?_
  · intro w _ _ j
    have hlink : (g₁.linkBlock b i).Uses w j ↔ g₁.Uses w j := Iff.rfl
    have hput : (g.putInst i (.phi op (args ++ [v]) (preds ++ [b]))).Uses w j ↔
        g.Uses w j := Iff.rfl
    rw [hlink, hu₁, hput]
    by_cases hj : j = i
    · subst hj
      rw [if_pos rfl, hg.uses_iff_mem hi]
      simp [Inst.args]
    · simp [hj]
  · intro c j
    rw [mem_usersOfBlock_linkBlock, usersOfBlock_of_blockUsers hs₁.blockUsers]
    have hput : (g.putInst i (.phi op (args ++ [v]) (preds ++ [b]))).usersOfBlock c =
        g.usersOfBlock c := rfl
    rw [hput]
    by_cases hj : j = i
    · subst hj
      rw [if_pos rfl, hg.blockUsers_iff, hi]
      simp [Inst.blocks]
    · simp [hj]
  · intro w hw
    rcases List.mem_append.1 hw with hw | hw
    · exact hg.operand hi hw
    · exact ⟨o, by rw [List.mem_singleton.1 hw]; exact hv⟩
  · intro op' args' preds' he
    cases he
    rw [List.length_append, List.length_append, hg.phi_lengths hi]
    rfl

theorem setIncoming_cases {g g' : DataFlow} {i : InstId} {b : BlockId} {v : ValueId}
    (h : g.setIncoming i b v = .ok g') :
    (∃ n, g.setArg i n v = .ok g') ∨ g.addIncoming i v b = .ok g' := by
  obtain ⟨⟨op, args, preds⟩, -, h⟩ := bind_eq_ok.1 h
  dsimp only at h
  split at h
  · exact .inl ⟨_, h⟩
  · exact .inr h

end MiddleEnd.DataFlow
