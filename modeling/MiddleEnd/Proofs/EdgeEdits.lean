import MiddleEnd.Proofs.Building
import MiddleEnd.Proofs.Thinning

/-!
# Edits of edges and blocks

A phi forgets an edge, a block gives its place in phis to another one, instructions move to the end
of another block, a block that nothing leads to goes with its instructions. Each edit goes through
on a coherent function, and each is described by what it does to every instruction.
-/

namespace MiddleEnd

namespace Inst

def keepEdges (keep : BlockId → Bool) : Inst → Inst
  | phi op args preds =>
    let kept := (args.zip preds).filter (keep ·.2)
    phi op (kept.map (·.1)) (kept.map (·.2))
  | i => i

@[simp]
theorem op_keepEdges (keep : BlockId → Bool) (i : Inst) : (i.keepEdges keep).op = i.op := by
  cases i <;> rfl

@[simp]
theorem edges_keepEdges (keep : BlockId → Bool) (i : Inst) :
    (i.keepEdges keep).edges = i.edges.filter (keep ·.2) := by
  cases i with
  | phi op args preds =>
    simp only [keepEdges, edges]
    rw [← List.zip_of_prod rfl rfl]
  | _ => rfl

theorem args_keepEdges_subset {keep : BlockId → Bool} {i : Inst} {v : ValueId}
    (h : v ∈ (i.keepEdges keep).args) :
    v ∈ i.args := by
  cases i with
  | phi op args preds =>
    obtain ⟨e, he, rfl⟩ := List.mem_map.1 h
    exact (List.of_mem_zip (List.mem_filter.1 he).1).1
  | _ => exact h

theorem keepEdges_keepEdges (keep keep' : BlockId → Bool) (i : Inst) :
    (i.keepEdges keep).keepEdges keep' = i.keepEdges fun b => keep b && keep' b := by
  cases i with
  | phi op args preds =>
    simp only [keepEdges]
    rw [← List.zip_of_prod rfl rfl, List.filter_filter]
    simp only [Bool.and_comm]
  | _ => rfl

def Even (i : Inst) : Prop := ∀ op args preds, i = phi op args preds → args.length = preds.length

theorem Even.blocks {i : Inst} (h : i.Even) (hphi : ∃ op args preds, i = phi op args preds) :
    i.edges.map (·.2) = i.blocks := by
  obtain ⟨op, args, preds, rfl⟩ := hphi
  exact List.map_snd_zip (Nat.le_of_eq (h op args preds rfl).symm)

theorem Even.args {i : Inst} (h : i.Even) (hphi : ∃ op args preds, i = phi op args preds) :
    i.edges.map (·.1) = i.args := by
  obtain ⟨op, args, preds, rfl⟩ := hphi
  exact List.map_fst_zip (Nat.le_of_eq (h op args preds rfl))

theorem even_keepEdges (keep : BlockId → Bool) {i : Inst} (h : i.Even) :
    (i.keepEdges keep).Even := by
  intro op args preds he
  cases i with
  | phi op' args' preds' =>
    cases he
    simp only [List.length_map]
  | _ => exact h _ _ _ he

theorem mem_blocks_keepEdges {keep : BlockId → Bool} {i : Inst} (h : i.Even)
    (hphi : ∃ op args preds, i = phi op args preds) {b : BlockId} :
    b ∈ (i.keepEdges keep).blocks ↔ b ∈ i.blocks ∧ keep b = true := by
  rw [← h.blocks hphi]
  obtain ⟨op, args, preds, rfl⟩ := hphi
  simp only [keepEdges, Inst.blocks, edges, List.mem_map, List.mem_filter]
  grind

theorem nodup_blocks_keepEdges {keep : BlockId → Bool} {i : Inst} (h : i.Even)
    (hn : i.blocks.Nodup) :
    (i.keepEdges keep).blocks.Nodup := by
  cases i with
  | phi op args preds =>
    rw [← h.blocks ⟨op, args, preds, rfl⟩] at hn
    exact hn.sublist (List.filter_sublist.map _)
  | _ => exact hn

theorem keepEdges_eq_self {keep : BlockId → Bool} {i : Inst} (h : i.Even)
    (hb : ∀ b ∈ i.blocks, keep b = true) :
    i.keepEdges keep = i := by
  cases i with
  | phi op args preds =>
    have hall : (args.zip preds).filter (keep ·.2) = args.zip preds :=
      List.filter_eq_self.2 fun e he => hb _ (List.of_mem_zip he).2
    have hargs := h.args ⟨op, args, preds, rfl⟩
    have hpreds := h.blocks ⟨op, args, preds, rfl⟩
    simp only [edges, Inst.args, Inst.blocks] at hargs hpreds
    simp only [keepEdges, hall, hargs, hpreds]
  | _ => rfl

theorem edges_mapArgs {g : ValueId → ValueId} {i : Inst} {v : ValueId} {p : BlockId}
    (h : (v, p) ∈ (i.mapArgs g).edges) :
    ∃ w, (w, p) ∈ i.edges ∧ v = g w := by
  cases i with
  | phi op args preds =>
    simp only [mapArgs, edges, List.zip_map_left, List.mem_map, Prod.exists, Prod.map_apply, id_eq,
      Prod.mk.injEq] at h ⊢
    obtain ⟨w, q, hw, rfl, rfl⟩ := h
    exact ⟨w, hw, rfl⟩
  | _ => cases h

theorem mem_edges_mapArgs (g : ValueId → ValueId) {i : Inst} {v : ValueId} {p : BlockId}
    (h : (v, p) ∈ i.edges) :
    (g v, p) ∈ (i.mapArgs g).edges := by
  cases i with
  | phi op args preds =>
    simp only [mapArgs, edges, List.zip_map_left] at h ⊢
    exact List.mem_map.2 ⟨(v, p), h, rfl⟩
  | _ => cases h

@[simp]
theorem op_mapBlocks (g : BlockId → BlockId) (i : Inst) : (i.mapBlocks g).op = i.op := by
  cases i <;> rfl

@[simp]
theorem args_mapBlocks (g : BlockId → BlockId) (i : Inst) : (i.mapBlocks g).args = i.args := by
  cases i <;> rfl

@[simp]
theorem blocks_mapBlocks (g : BlockId → BlockId) (i : Inst) :
    (i.mapBlocks g).blocks = i.blocks.map g := by
  cases i <;> rfl

theorem edges_mapBlocks {g : BlockId → BlockId} {i : Inst} {v : ValueId} {p : BlockId}
    (h : (v, p) ∈ (i.mapBlocks g).edges) :
    ∃ q, (v, q) ∈ i.edges ∧ p = g q := by
  cases i with
  | phi op args preds =>
    simp only [mapBlocks, edges, List.zip_map_right, List.mem_map, Prod.exists, Prod.map_apply,
      id_eq, Prod.mk.injEq] at h ⊢
    obtain ⟨w, q, hq, rfl, rfl⟩ := h
    exact ⟨q, hq, rfl⟩
  | _ => cases h

theorem mem_edges_mapBlocks (g : BlockId → BlockId) {i : Inst} {v : ValueId} {p : BlockId}
    (h : (v, p) ∈ i.edges) :
    (v, g p) ∈ (i.mapBlocks g).edges := by
  cases i with
  | phi op args preds =>
    simp only [mapBlocks, edges, List.zip_map_right] at h ⊢
    exact List.mem_map.2 ⟨(v, p), h, rfl⟩
  | _ => cases h

theorem mapBlocks_eq_self {g : BlockId → BlockId} {i : Inst} (h : ∀ b ∈ i.blocks, g b = b) :
    i.mapBlocks g = i := by
  cases i with
  | phi op args preds =>
    have hpreds : preds.map g = preds := (List.map_congr_left (g := id) h).trans (List.map_id preds)
    rw [mapBlocks, hpreds]
  | jump op b => rw [mapBlocks, h b (by simp [blocks])]
  | branch op c t e => rw [mapBlocks, h t (by simp [blocks]), h e (by simp [blocks])]
  | _ => rfl

theorem even_mapBlocks (g : BlockId → BlockId) {i : Inst} (h : i.Even) : (i.mapBlocks g).Even := by
  intro op args preds he
  cases i with
  | phi op' args' preds' =>
    cases he
    rw [List.length_map]
    exact h _ _ _ rfl
  | _ => cases he

end Inst

namespace DataFlow

theorem Exact.even {g : DataFlow} (h : g.Exact) {i : InstId} {inst : Inst}
    (hi : g.inst? i = some inst) :
    inst.Even :=
  fun _ _ _ he => h.phi_lengths (he ▸ hi)

theorem unlinkBlock_blockUsersOnly (g : DataFlow) (b : BlockId) (i : InstId) :
    BlockUsersOnly g (g.unlinkBlock b i) := by
  unfold unlinkBlock
  split <;> exact ⟨rfl, rfl, rfl, rfl, rfl⟩

theorem linkBlock_blockUsersOnly (g : DataFlow) (b : BlockId) (i : InstId) :
    BlockUsersOnly g (g.linkBlock b i) :=
  ⟨rfl, rfl, rfl, rfl, rfl⟩

theorem Patched.blockUsersOnly {g g' g'' : DataFlow} {i : InstId} {inst : Inst}
    (h : Patched g g' i inst) (h' : BlockUsersOnly g' g'') : Patched g g'' i inst where
  insts := h'.insts.trans h.insts
  origins v := by
    rw [← h.origins v]
    unfold DataFlow.origin?
    rw [h'.values]
  params := h'.params.trans h.params
  imports := h'.imports.trans h.imports
  epoch := h'.epoch.trans h.epoch

theorem dropEdges_eq {b : BlockId} {args : List ValueId} {preds : List BlockId}
    (h : args.length = preds.length) (kept most : Nat) : dropEdges b kept most args preds =
      .ok (((args.zip preds).filter (·.2 = b)).map (·.1),
        ((args.zip preds).filter (·.2 ≠ b)).map (·.1),
        ((args.zip preds).filter (·.2 ≠ b)).map (·.2)) := by
  induction args generalizing preds kept most with
  | nil =>
    cases preds with
    | nil => rfl
    | cons p ps => cases h
  | cons v vs ih =>
    cases preds with
    | nil => cases h
    | cons p ps =>
      have h' : vs.length = ps.length := by simpa using h
      unfold dropEdges
      by_cases hp : p = b
      · rw [if_pos hp, ih h', ok_bind]
        simp [hp]
      · rw [if_neg hp, ih h', ok_bind]
        simp [hp]

theorem unlinkDropped_spec (g : DataFlow) (i : InstId) (args dropped : List ValueId) :
    UsersOnly g (dropped.foldl (fun g v => if v ∈ args then g else g.unlinkUse v i) g) ∧
      ∀ w j, (dropped.foldl (fun g v => if v ∈ args then g else g.unlinkUse v i) g).Uses w j ↔
        g.Uses w j ∧ ¬ (w ∈ dropped ∧ w ∉ args ∧ j = i) := by
  refine foldl_induct
    (fun pre g' => UsersOnly g g' ∧ ∀ w j, g'.Uses w j ↔ g.Uses w j ∧
    ¬ (w ∈ pre ∧ w ∉ args ∧ j = i)) ⟨UsersOnly.refl g, by simp⟩ ?_
  rintro pre v post g' - ⟨hs, hu⟩
  by_cases hv : v ∈ args
  · rw [if_pos hv]
    refine ⟨hs, fun w j => ?_⟩
    rw [hu, List.mem_append, List.mem_singleton]
    grind
  · rw [if_neg hv]
    obtain ⟨hs', hu'⟩ := unlinkUse_spec g' v i
    refine ⟨hs.trans hs', fun w j => ?_⟩
    rw [hu', hu, List.mem_append, List.mem_singleton]
    grind

theorem removeIncoming_ok {g : DataFlow} (hg : g.Exact) {i : InstId} {inst : Inst} (b : BlockId)
    (hi : g.inst? i = some inst) (hphi : ∃ op args preds, inst = .phi op args preds) :
    ∃ n g', g.removeIncoming i b = .ok (n, g') ∧ g'.Exact ∧
      Rewired g g' fun j jnst => if j = i then inst.keepEdges (· ≠ b) else jnst := by
  have heven := hg.even hi
  have hblocks := heven.blocks hphi
  have hargs := heven.args hphi
  obtain ⟨op, args, preds, rfl⟩ := hphi
  have hdrop := dropEdges_eq (b := b) (heven op args preds rfl) 0 0
  unfold removeIncoming
  rw [phiLists_ok hi, ok_bind]
  simp only [hdrop, ok_bind]
  split
  · rename_i hempty
    -- No edge comes from the block.
    refine ⟨0, g, rfl, hg, (Rewired.refl g).congr fun j jnst hj => ?_⟩
    by_cases hji : j = i
    · subst hji
      rw [hi] at hj
      cases hj
      rw [if_pos rfl]
      refine (Inst.keepEdges_eq_self heven fun p hp => ?_).symm
      rw [← hblocks] at hp
      obtain ⟨e, he, rfl⟩ := List.mem_map.1 hp
      rw [List.isEmpty_iff, List.map_eq_nil_iff, List.filter_eq_nil_iff] at hempty
      simpa using hempty e he
    · rw [if_neg hji]
  · have hp₁ := (putInst_patched g i ((Inst.phi op args preds).keepEdges (· ≠ b))).blockUsersOnly
      (unlinkBlock_blockUsersOnly _ b i)
    obtain ⟨hs₂, hu₂⟩ := unlinkDropped_spec
      ((g.putInst i ((Inst.phi op args preds).keepEdges (· ≠ b))).unlinkBlock b i) i
      (((args.zip preds).filter (·.2 ≠ b)).map (·.1))
      (((args.zip preds).filter (·.2 = b)).map (·.1))
    have hp₂ := hp₁.usersOnly hs₂
    refine ⟨_, _, rfl, ?_, hp₂.rewired hi⟩
    refine Relinked.exact ⟨hp₂.inst? hi, hp₂.origins, ?_, ?_⟩ (hp₂.rewired hi) hg
      (fun v hv => hg.operand hi (Inst.args_keepEdges_subset hv)) (Inst.even_keepEdges _ heven)
    · intro v _ _ j
      have hput : ((g.putInst i ((Inst.phi op args preds).keepEdges (· ≠ b))).unlinkBlock b i).Uses
          v j ↔ g.Uses v j := by
        rw [uses_iff, uses_iff, (unlinkBlock_blockUsersOnly _ b i).values]
        exact Iff.rfl
      refine (hu₂ v j).trans ?_
      rw [hput]
      by_cases hj : j = i
      · subst hj
        rw [if_pos rfl, hg.uses_iff_mem hi, ← hargs]
        simp only [Inst.keepEdges, Inst.edges, Inst.args, List.mem_map, List.mem_filter]
        grind
      · rw [if_neg hj]
        simp [hj]
    · intro c j
      have hput : (g.putInst i ((Inst.phi op args preds).keepEdges (· ≠ b))).usersOfBlock c =
          g.usersOfBlock c := rfl
      have hmem :=
        mem_usersOfBlock_unlinkBlock (g.putInst i ((Inst.phi op args preds).keepEdges (· ≠ b))) b c
          i j
      rw [← usersOfBlock_of_blockUsers hs₂.blockUsers, hput] at hmem
      refine hmem.trans ?_
      by_cases hj : j = i
      · subst hj
        rw [if_pos rfl, hg.blockUsers_iff, hi,
          Inst.mem_blocks_keepEdges heven ⟨op, args, preds, rfl⟩]
        simp
      · simp [hj]

def reroute (old new b : BlockId) : BlockId := if b = old then new else b

theorem reroute_of_ne {old new b : BlockId} (h : b ≠ old) : reroute old new b = b := if_neg h

theorem mem_map_reroute {old new b : BlockId} {xs : List BlockId} (hne : old ≠ new)
    (ho : old ∈ xs) :
    b ∈ xs.map (reroute old new) ↔ (b ∈ xs ∧ b ≠ old) ∨ b = new := by
  rw [List.mem_map]
  constructor
  · rintro ⟨c, hc, rfl⟩
    by_cases h : c = old
    · exact .inr (if_pos h)
    · rw [reroute_of_ne h]
      exact .inl ⟨hc, h⟩
  · rintro (⟨hb, h⟩ | rfl)
    · exact ⟨b, hb, reroute_of_ne h⟩
    · exact ⟨old, ho, if_pos rfl⟩

theorem Exact.withEpoch {g : DataFlow} (h : g.Exact) (e : Nat) :
    ({ g with epoch := e } : DataFlow).Exact :=
  h.congr rfl rfl rfl rfl

theorem Rewired.withEpoch {g g' : DataFlow} {ρ : InstId → Inst → Inst}
    (h : Rewired g g' ρ) (e : Nat) :
    Rewired { g with epoch := e } { g' with epoch := e } ρ :=
  ⟨h.inst?, h.result?, h.origin?, h.added, h.params, h.imports, rfl, h.size, h.bound⟩

theorem replaceBlockWithin_ok {g : DataFlow} (hg : g.Exact) {i : InstId} {inst : Inst}
    {old new : BlockId} (hne : old ≠ new) (hi : g.inst? i = some inst) (hold : old ∈ inst.blocks) :
    ∃ n g', g.replaceBlockWithin old new i = .ok (n, g') ∧ g'.Exact ∧
      Rewired { g with epoch := g'.epoch } g'
        (fun j jnst => if j = i then inst.mapBlocks (reroute old new) else jnst) ∧
      (inst.op.isTerminator = false → g'.epoch = g.epoch) := by
  have hp₁ := ((putInst_patched g i (inst.mapBlocks (reroute old new))).blockUsersOnly
    (unlinkBlock_blockUsersOnly _ old i))
  have hp₂ :
      Patched g (((g.putInst i (inst.mapBlocks (reroute old new))).unlinkBlock old
      i).linkBlock new i) i (inst.mapBlocks (reroute old new)) :=
    ⟨hp₁.insts, hp₁.origins, hp₁.params, hp₁.imports, hp₁.epoch⟩
  have hexact : (((g.putInst i (inst.mapBlocks (reroute old new))).unlinkBlock old i).linkBlock new
      i).Exact := by
    refine Relinked.exact ⟨hp₂.inst? hi, hp₂.origins, ?_, ?_⟩ (hp₂.rewired hi) hg
      (fun v hv => hg.operand hi (by rw [← Inst.args_mapBlocks]; exact hv))
      (Inst.even_mapBlocks _ (hg.even hi))
    · intro v _ _ j
      have hput : (((g.putInst i (inst.mapBlocks (reroute old new))).unlinkBlock old i).linkBlock
          new i).Uses v j ↔
          g.Uses v j := by
        have hvalues :=
          (unlinkBlock_blockUsersOnly (g.putInst i (inst.mapBlocks (reroute old new))) old i).values
        rw [uses_iff, uses_iff]
        show (∃ e, ((g.putInst i (inst.mapBlocks (reroute old new))).unlinkBlock old i).values.get?
          v = some e ∧ _) ↔ _
        rw [hvalues]
        exact Iff.rfl
      rw [hput]
      by_cases hj : j = i
      · subst hj
        rw [if_pos rfl, hg.uses_iff_mem hi, Inst.args_mapBlocks]
      · rw [if_neg hj]
    · intro c j
      have hput : (g.putInst i (inst.mapBlocks (reroute old new))).usersOfBlock c =
          g.usersOfBlock c := rfl
      rw [mem_usersOfBlock_linkBlock, mem_usersOfBlock_unlinkBlock, hput]
      by_cases hj : j = i
      · subst hj
        rw [if_pos rfl, Inst.blocks_mapBlocks, mem_map_reroute hne hold, hg.blockUsers_iff, hi]
        simp
      · simp [hj]
  have hcount : inst.blocks.count old ≠ 0 := by
    rw [Ne, List.count_eq_zero]
    exact fun h => h hold
  unfold replaceBlockWithin
  rw [if_neg hne, inst_eq_ok.2 hi, ok_bind]
  simp only [if_neg hcount]
  refine ⟨_, _, rfl, ?_⟩
  by_cases ht : inst.op.isTerminator = true
  · rw [if_pos ht]
    refine ⟨hexact.withEpoch _, (hp₂.rewired hi).withEpoch _, fun hf => ?_⟩
    rw [ht] at hf
    cases hf
  · rw [if_neg ht]
    exact ⟨hexact, (hp₂.rewired hi).withEpoch _, fun _ => hp₂.epoch⟩

/-- Only phis refer to the old block, so that no edge changes. -/
theorem replaceBlockUse_ok {g : DataFlow} (hg : g.Exact) {old new : BlockId} (hne : old ≠ new)
    (hphi : ∀ {i inst}, g.inst? i = some inst → old ∈ inst.blocks → inst.op.isTerminator = false) :
    ∃ n g', g.replaceBlockUse old new = .ok (n, g') ∧ g'.Exact ∧
      Rewired g g' fun _ inst => inst.mapBlocks (reroute old new) := by
  have hfold := foldlM_yields (l := (g.usersOfBlock old).toList) (b := ((0 : Nat), g))
    (f := fun (p : Nat × DataFlow) i => do
      let r ← p.2.replaceBlockWithin old new i
      return (p.1 + r.1, r.2))
    (fun pre p => p.2.Exact ∧
      Rewired g p.2 fun j jnst => if j ∈ pre then jnst.mapBlocks (reroute old new) else jnst)
    ⟨hg, (Rewired.refl g).congr fun i inst _ => by rw [if_neg List.not_mem_nil]⟩ ?_
  · obtain ⟨⟨n, g'⟩, hd, hE, hR⟩ := hfold
    refine ⟨n, g', hd, hE, hR.congr ?_⟩
    intro i inst hi
    by_cases hin : i ∈ (g.usersOfBlock old).toList
    · rw [if_pos hin]
    · rw [if_neg hin]
      refine (Inst.mapBlocks_eq_self fun b hb => reroute_of_ne ?_).symm
      rintro rfl
      exact hin ((hg.blockUsers_iff b i).2 ⟨inst, hi, hb⟩)
  · rintro pre i post ⟨n, h⟩ hsplit ⟨hE, hR⟩
    have hnodup : (pre ++ i :: post).Nodup := hsplit ▸ (g.usersOfBlock old).nodup
    have hpre : i ∉ pre := fun hm =>
      (List.nodup_append.1 hnodup).2.2 i hm i List.mem_cons_self rfl
    have hiu : i ∈ g.usersOfBlock old := by
      rw [KeySet.mem_def, hsplit]
      exact List.mem_append_right _ List.mem_cons_self
    obtain ⟨inst, hi, hblock⟩ := (hg.blockUsers_iff old i).1 hiu
    have hi' : h.inst? i = some inst := by rw [hR.inst?, hi, Option.map_some, if_neg hpre]
    obtain ⟨m, g', hg', hE', hR', hep⟩ := replaceBlockWithin_ok hE hne hi' hblock
    have hR'' : Rewired h g' fun j jnst => if j = i then inst.mapBlocks (reroute old new)
        else jnst := by
      rw [hep (hphi hi hblock)] at hR'
      exact hR'
    refine ⟨(n + m, g'), by simp only [hg', ok_bind, pure_eq_ok], hE', (hR.trans hR'').congr ?_⟩
    intro j jnst hj
    by_cases hji : j = i
    · subst hji
      rw [hi] at hj
      cases hj
      simp
    · simp [hji]

theorem replaceBlockUse_induct {P : DataFlow → Prop} {g g' : DataFlow} {old new : BlockId} {n : Nat}
    (h : g.replaceBlockUse old new = .ok (n, g')) (start : P g)
    (step : ∀ {c c' i m}, P c → c.replaceBlockWithin old new i = .ok (m, c') → P c') : P g' := by
  refine foldlM_ok_induct (fun _ (p : Nat × DataFlow) => P p.2) h start ?_
  rintro pre i post ⟨k, c⟩ c' - hc hstep
  obtain ⟨⟨m, d⟩, hd, hstep⟩ := bind_eq_ok.1 hstep
  cases hstep
  exact step hc hd

theorem forgetBlock_ok {g : DataFlow} (hg : g.Exact) {b : BlockId}
    (h : ∀ {i inst}, g.inst? i = some inst → b ∉ inst.blocks) :
    ∃ g', g.forgetBlock b = .ok g' ∧ g'.Exact ∧ Rewired g g' fun _ inst => inst := by
  have hnone : ∀ i, ¬ i ∈ g.usersOfBlock b := fun i hi => by
    obtain ⟨inst, hinst, hb⟩ := (hg.blockUsers_iff b i).1 hi
    exact h hinst hb
  unfold forgetBlock
  rw [if_pos (KeySet.isEmpty_iff.2 hnone)]
  refine ⟨_, rfl, ⟨hg.users_iff, hg.operand, ?_, hg.phi_lengths, hg.result_origin, hg.origin_result,
    hg.shared_unique, hg.param_origin, hg.params_nodup⟩,
    ⟨(Rewired.refl g).inst?, fun _ => rfl, id, .inl, rfl, rfl, rfl, rfl, rfl⟩⟩
  intro c i
  rw [usersOfBlock, Dict.get?_erase]
  by_cases hc : b = c
  · subst hc
    rw [if_pos rfl]
    exact ⟨fun hi => absurd hi KeySet.not_mem_emptyc,
      fun hi => absurd ((hg.blockUsers_iff b i).2 hi) (hnone i)⟩
  · rw [if_neg hc]
    exact hg.blockUsers_iff c i

end DataFlow

namespace Layout

theorem row?_filter_ne (l : Layout) {b c : BlockId} (h : c ≠ b) :
    (⟨l.rows.filter (·.block ≠ b)⟩ : Layout).row? c = l.row? c := by
  unfold row?
  rw [List.find?_filter]
  congr 1
  funext r
  grind

theorem removeBlock_ok {l : Layout} (h : l.Proper) {b : BlockId} (hb : l.insts b = .ok []) :
    ∃ l', l.removeBlock b = .ok l' ∧ l'.Proper ∧ l'.blocks = l.blocks.filter (· ≠ b) ∧
      (∀ {c}, c ≠ b → l'.insts c = l.insts c) ∧ ∀ i, i ∈ l'.allInsts ↔ i ∈ l.allInsts := by
  obtain ⟨r, hr, hempty⟩ := insts_eq_ok.1 hb
  have hblocks : (⟨l.rows.filter (·.block ≠ b)⟩ : Layout).blocks = l.blocks.filter (· ≠ b) := by
    unfold blocks
    rw [List.filter_map]
    rfl
  have hinsts : ∀ {c}, c ≠ b → (⟨l.rows.filter (·.block ≠ b)⟩ : Layout).insts c = l.insts c := by
    intro c hc
    unfold insts row
    rw [row?_filter_ne l hc]
  have hback : ∀ {c xs}, (⟨l.rows.filter (·.block ≠ b)⟩ : Layout).insts c = .ok xs → c ≠ b ∧
      l.insts c = .ok xs := by
    intro c xs hc
    have hm := mem_blocks_iff.2 ⟨xs, hc⟩
    rw [hblocks, List.mem_filter] at hm
    have hne : c ≠ b := by simpa using hm.2
    exact ⟨hne, by rw [← hinsts hne]; exact hc⟩
  have hnodup : (⟨l.rows.filter (·.block ≠ b)⟩ : Layout).blocks.Nodup := by
    rw [hblocks]
    exact h.blocks_nodup.filter _
  refine ⟨_, ?_, ⟨hnodup, fun hc => h.insts_nodup (hback hc).2,
    fun hc hc' => h.one_block (hback hc).2 (hback hc').2⟩, hblocks, hinsts, fun i => ?_⟩
  · unfold removeBlock
    rw [hr]
    simp only [hempty, List.isEmpty_nil, if_true]
  · rw [mem_allInsts_iff hnodup, mem_allInsts_iff h.blocks_nodup]
    constructor
    · rintro ⟨c, xs, hc, hi⟩
      exact ⟨c, xs, (hback hc).2, hi⟩
    · rintro ⟨c, xs, hc, hi⟩
      have hne : c ≠ b := by
        rintro rfl
        rw [hb] at hc
        cases hc
        cases hi
      exact ⟨c, xs, by rw [hinsts hne]; exact hc, hi⟩

theorem insts_of_removeBlock {l l' : Layout} {b : BlockId} (h : l.removeBlock b = .ok l') :
    l.insts b = .ok [] := by
  unfold removeBlock at h
  split at h
  · cases h
  · rename_i row hrow
    split at h
    · rename_i hnil
      exact insts_eq_ok.2 ⟨row, hrow, List.isEmpty_iff.1 hnil⟩
    · cases h

end Layout

namespace Builder

/-- Some phis of the first function have forgotten the edges from `p`. -/
structure Forgot (b : Builder) (p : BlockId) (phis : List InstId) (c : Builder) : Prop where
  same : c = b.withFlow c.flow
  exact : c.flow.Exact
  rewired : DataFlow.Rewired b.flow c.flow fun i inst =>
    if i ∈ phis then inst.keepEdges (· ≠ p) else inst

theorem Forgot.nil {b : Builder} (h : b.func.Coherent) (p : BlockId) : b.Forgot p [] b where
  same := rfl
  exact := h.flow
  rewired := (DataFlow.Rewired.refl _).congr fun i inst _ => by rw [if_neg List.not_mem_nil]

theorem Forgot.step {b c : Builder} {p : BlockId} {phis : List InstId}
    (h : b.Forgot p phis c) {i : InstId}
    (hi : ∃ op args preds, b.flow.inst? i = some (.phi op args preds)) :
    ∃ n g, c.flow.removeIncoming i p = .ok (n, g) ∧ b.Forgot p (phis ++ [i]) (c.withFlow g) := by
  obtain ⟨op, args, preds, hi⟩ := hi
  have hc := h.rewired.inst? i
  rw [hi, Option.map_some] at hc
  obtain ⟨n, g, hg, hexact, hR⟩ :=
    DataFlow.removeIncoming_ok h.exact p hc (by split <;> exact ⟨_, _, _, rfl⟩)
  refine ⟨n, g, hg, by rw [h.same]; rfl, hexact, (h.rewired.trans hR).congr fun j jnst hj => ?_⟩
  by_cases hji : j = i
  · subst hji
    rw [hi] at hj
    cases hj
    rw [if_pos rfl, if_pos (List.mem_append_right _ List.mem_cons_self)]
    split
    · rw [Inst.keepEdges_keepEdges]
      simp only [Bool.and_self]
    · rfl
  · simp [hji]

/-- The first instruction of a block moves to the end of another one. -/
theorem moveToEnd_ok {b : Builder} (h : b.func.Coherent) {i : InstId} {c d : BlockId}
    {xs ys : List InstId} (hc : b.func.insts c = .ok (i :: xs)) (hd : b.func.insts d = .ok ys)
    (hne : c ≠ d) :
    ∃ b', b.moveToEnd i d = .ok b' ∧ b'.func.Coherent ∧ b'.flow = b.flow ∧
      Func.Alike b.func b'.func ∧ b'.func.insts c = .ok xs ∧ b'.func.insts d = .ok (ys ++ [i]) ∧
      ∀ {e}, e ≠ c → e ≠ d → b'.func.insts e = b.func.insts e := by
  have hmem : i ∈ b.func.layout.allInsts :=
    (Layout.mem_allInsts_iff h.layout.blocks_nodup).2 ⟨c, _, hc, List.mem_cons_self⟩
  obtain ⟨pos, hpos⟩ := InsertPos.release_ok h.layout hmem b.pos
  have hn := List.nodup_cons.1 (h.layout.insts_nodup hc)
  have hfilter : (i :: xs).filter (· ≠ i) = xs := by
    rw [List.filter_cons, if_neg (by simp), List.filter_eq_self.2]
    intro j hj
    have : j ≠ i := fun e => hn.1 (e ▸ hj)
    simpa using this
  -- Out of the one row, then into the other one.
  have hproper : (b.func.layout.editRow c (·.filter (· ≠ i))).Proper :=
    h.layout.editRow hc (by rw [hfilter]; exact hn.2) fun j hj => .inl (List.mem_filter.1 hj).1
  have hout : i ∉ (b.func.layout.editRow c (·.filter (· ≠ i))).allInsts := by
    rw [Layout.mem_allInsts_editRow h.layout hc, hfilter]
    rintro (hi | ⟨-, hi⟩)
    · exact hn.1 hi
    · exact hi List.mem_cons_self
  have hd' : (b.func.layout.editRow c (·.filter (· ≠ i))).insts d = .ok ys := by
    rw [Layout.insts_editRow_ne _ (Ne.symm hne)]
    exact hd
  have hid : i ∉ ys := fun hi => hne (h.layout.one_block hc hd List.mem_cons_self hi)
  have hproper' : ((b.func.layout.editRow c (·.filter (· ≠ i))).editRow d (· ++ [i])).Proper := by
    refine hproper.editRow hd' ?_ fun j hj => ?_
    · refine List.nodup_append.2 ⟨h.layout.insts_nodup hd,
        List.nodup_cons.2 ⟨List.not_mem_nil, List.nodup_nil⟩, ?_⟩
      intro j hj k hk he
      rw [List.mem_singleton.1 hk] at he
      exact hid (he ▸ hj)
    · rcases List.mem_append.1 hj with hj | hj
      · exact .inl hj
      · exact .inr (by rw [List.mem_singleton.1 hj]; exact hout)
  refine ⟨⟨{ b.func with layout := (b.func.layout.editRow c (·.filter (· ≠ i))).editRow d (· ++
    [i]) }, pos⟩, ?_, ⟨h.flow, hproper', fun j => ?_, fun e => ?_⟩, rfl,
    ⟨rfl, rfl, rfl, ?_⟩, ?_, ?_, ?_⟩
  · unfold moveToEnd
    rw [hpos, ok_bind, Layout.removeInst_ok h.layout hc List.mem_cons_self, ok_bind,
      Layout.appendInst_ok hproper hout hd', ok_bind]
  · rw [Layout.mem_allInsts_editRow hproper hd', Layout.mem_allInsts_editRow h.layout hc,
      hfilter, ← h.placed j]
    have hin : ∀ {j}, j ∈ xs → j ∈ b.func.layout.allInsts := fun hj =>
      (Layout.mem_allInsts_iff h.layout.blocks_nodup).2 ⟨c, _, hc, List.mem_cons_of_mem _ hj⟩
    have hin' : ∀ {j}, j ∈ ys → j ∈ b.func.layout.allInsts := fun hj =>
      (Layout.mem_allInsts_iff h.layout.blocks_nodup).2 ⟨d, _, hd, hj⟩
    simp only [List.mem_append, List.mem_cons, List.not_mem_nil, or_false]
    grind
  · show e ∈ ((b.func.layout.editRow c _).editRow d _).blocks ↔ _
    rw [Layout.blocks_editRow, Layout.blocks_editRow]
    exact h.known e
  · show ((b.func.layout.editRow c _).editRow d _).blocks = _
    rw [Layout.blocks_editRow, Layout.blocks_editRow]
  · show ((b.func.layout.editRow c _).editRow d _).insts c = _
    rw [Layout.insts_editRow_ne _ hne, Layout.insts_editRow_self _ hc, hfilter]
  · exact Layout.insts_editRow_self _ hd'
  · intro e hec hed
    show ((b.func.layout.editRow c _).editRow d _).insts e = _
    rw [Layout.insts_editRow_ne _ hed, Layout.insts_editRow_ne _ hec]
    rfl

theorem replaceByUndef_ok {b : Builder} (h : b.func.Coherent) {v : ValueId} {o : ValueDef}
    (hv : b.flow.origin? v = some o) :
    ∃ g blank, b.replaceByUndef v = .ok (b.withFlow g) ∧ (b.withFlow g).func.Coherent ∧
      g.origin? blank = some (.undef o.ty) ∧
      DataFlow.Rewired b.flow g fun _ inst => inst.mapArgs (DataFlow.swap v blank) := by
  obtain ⟨blank, g₁, hg₁, hblank, hexact, hR₁⟩ :=
    DataFlow.shared_ok h.flow (o := .undef o.ty) (.inr rfl)
  obtain ⟨g, hg, hcoh, hR⟩ :=
    replaceUse_ok (b := b.withFlow g₁) (h.rewire hexact hR₁) (hR₁.origin? hv) hblank
  refine ⟨g, blank, ?_, hcoh, hR.origin? hblank, hR₁.trans hR⟩
  unfold replaceByUndef
  rw [DataFlow.ty_of_origin hv, ok_bind]
  have hundef : b.flow.undef o.ty = (blank, g₁) := hg₁
  simp only [hundef]
  exact hg

/-- Some results of the first function have given way to `undef`. -/
structure Blanked (b : Builder) (results : List ValueId) (c : Builder) (τ : ValueId → ValueId) :
    Prop where
  same : c = b.withFlow c.flow
  coherent : c.func.Coherent
  rewired : DataFlow.Rewired b.flow c.flow fun _ inst => inst.mapArgs τ
  kept : ∀ {v}, v ∉ results → τ v = v
  blank : ∀ {v}, v ∈ results → ∃ ty i, b.flow.origin? v = some (.result ty i) ∧
    c.flow.origin? (τ v) = some (.undef ty)

theorem Blanked.step {b c : Builder} {results : List ValueId} {τ : ValueId → ValueId}
    (h : b.Blanked results c τ) {v : ValueId} {ty : Ty} {i : InstId}
    (hv : b.flow.origin? v = some (.result ty i)) :
    ∃ c' τ', c.replaceByUndef v = .ok c' ∧ b.Blanked (results ++ [v]) c' τ' := by
  obtain ⟨g, blank, hg, hcoh, hblank, hR⟩ := replaceByUndef_ok h.coherent (h.rewired.origin? hv)
  refine ⟨c.withFlow g, fun w => DataFlow.swap v blank (τ w), hg, by rw [h.same]; rfl, hcoh,
    (h.rewired.trans hR).congr fun j jnst _ => ?_, fun {w} hw => ?_, fun {w} hw => ?_⟩
  · rw [Inst.mapArgs_mapArgs]
    rfl
  · rw [List.mem_append, List.mem_singleton, not_or] at hw
    rw [h.kept hw.1, DataFlow.swap_of_ne hw.2]
  · by_cases hold : w ∈ results
    · obtain ⟨ty', j, hw', hundef⟩ := h.blank hold
      have hne : τ w ≠ v := by
        intro he
        rw [he, h.rewired.origin? hv] at hundef
        cases hundef
      refine ⟨ty', j, hw', ?_⟩
      show g.origin? (DataFlow.swap v blank (τ w)) = _
      rw [DataFlow.swap_of_ne hne]
      exact hR.origin? hundef
    · obtain rfl : w = v := by
        rw [List.mem_append, List.mem_singleton] at hw
        exact hw.resolve_left hold
      refine ⟨ty, i, hv, ?_⟩
      show g.origin? (DataFlow.swap w blank (τ w)) = _
      rw [h.kept hold, DataFlow.swap, if_pos rfl]
      exact hblank

theorem blankAll_ok {b : Builder} (h : b.func.Coherent) (results : List ValueId)
    (hres : ∀ v ∈ results, ∃ ty i, b.flow.origin? v = some (.result ty i)) :
    ∃ c τ, results.foldlM (fun (b : Builder) v => b.replaceByUndef v) b = .ok c ∧
      b.Blanked results c τ := by
  have hstart : ∃ τ, b.Blanked [] b τ :=
    ⟨id, rfl, h, (DataFlow.Rewired.refl _).congr fun _ _ _ =>
      (Inst.mapArgs_eq_self fun _ _ => rfl).symm,
      fun _ => rfl, fun hv => absurd hv List.not_mem_nil⟩
  have hfold := foldlM_yields (f := fun (b : Builder) v => b.replaceByUndef v) (l := results)
    (fun done c => ∃ τ, b.Blanked done c τ) hstart ?_
  · obtain ⟨c, hc, τ, hτ⟩ := hfold
    exact ⟨c, τ, hc, hτ⟩
  · rintro done v post c rfl ⟨τ, hτ⟩
    obtain ⟨ty, i, hv⟩ := hres v (List.mem_append_right _ List.mem_cons_self)
    obtain ⟨c', τ', hc', hτ'⟩ := hτ.step hv
    exact ⟨c', hc', τ', hτ'⟩

end Builder

namespace Func

theorem Arranged.dropBlock {f : Func} (h : f.Arranged) {c : BlockId} {g : DataFlow} {l : Layout}
    {info : BlockInfo} {table : Table BlockId BlockInfo} (hg : ∀ i, g.inst? i = f.flow.inst? i)
    (hl : f.layout.removeBlock c = .ok l) (ht : f.blockTable.remove c = .ok (info, table)) :
    ({ f with flow := g, layout := l, blockTable := table } : Func).Arranged := by
  obtain ⟨l', hl', hproper, hblocks, -, hall⟩ :=
    Layout.removeBlock_ok h.layout (Layout.insts_of_removeBlock hl)
  cases hl.symm.trans hl'
  obtain ⟨-, -, htable⟩ := Table.remove_eq_ok ht
  refine ⟨hproper, fun i => ?_, fun d => ?_⟩
  · show i ∈ l.allInsts ↔ ∃ inst, g.inst? i = some inst
    rw [hall, h.placed, hg]
  · have hknown := h.known d
    show d ∈ l.blocks ↔ table.contains d = true
    unfold hasBlock at hknown
    rw [hblocks, List.mem_filter, hknown, Table.contains_iff, Table.contains_iff]
    simp only [htable]
    by_cases hd : d = c <;> simp [hd]

theorem Coherent.dropBlock {f : Func} (h : f.Coherent) {c : BlockId} (hc : f.insts c = .ok [])
    (hfree : ∀ {i inst}, f.flow.inst? i = some inst → c ∉ inst.blocks) :
    ∃ g l info table, f.flow.forgetBlock c = .ok g ∧ f.layout.removeBlock c = .ok l ∧
      f.blockTable.remove c = .ok (info, table) ∧
      ({ f with flow := g.touch, layout := l, blockTable := table } : Func).Coherent ∧
      l.blocks = f.layout.blocks.filter (· ≠ c) ∧ (∀ {d}, d ≠ c → l.insts d = f.layout.insts d) ∧
      DataFlow.Rewired f.flow g fun _ inst => inst := by
  obtain ⟨g, hg, hexact, hR⟩ := DataFlow.forgetBlock_ok h.flow hfree
  obtain ⟨l, hl, -, hblocks, hinsts, -⟩ := Layout.removeBlock_ok h.layout hc
  obtain ⟨info, hinfo⟩ := Table.contains_iff.1 ((h.known c).1 (Layout.mem_blocks_iff.2 ⟨[], hc⟩))
  obtain ⟨table, ht⟩ := Table.remove_ok hinfo
  have hsame : ∀ i, g.touch.inst? i = f.flow.inst? i := fun i => (hR.inst? i).trans (by simp)
  have harranged := h.arranged.dropBlock hsame hl ht
  exact ⟨g, l, info, table, hg, hl, ht, ⟨hexact.withEpoch _, harranged.layout, harranged.placed,
    harranged.known⟩, hblocks, hinsts, hR⟩

def Within (f : Func) (D : List BlockId) (i : InstId) : Prop :=
  ∃ c xs, c ∈ D ∧ f.insts c = .ok xs ∧ i ∈ xs

/-- The second function is the first one without some blocks and their instructions. Elsewhere
`undef` stands for their results. -/
structure Stripped (f f' : Func) (D : List BlockId) (τ : ValueId → ValueId) : Prop where
  coherent : f'.Coherent
  sig : f'.sig = f.sig
  blocks : f'.blocks = f.blocks.filter (· ∉ D)
  insts : ∀ {c}, c ∉ D → f'.insts c = f.insts c
  inst_iff : ∀ {i inst'}, f'.flow.inst? i = some inst' ↔
    ¬ f.Within D i ∧ ∃ inst, f.flow.inst? i = some inst ∧ inst' = inst.mapArgs τ
  result? : ∀ {i}, ¬ f.Within D i → f'.flow.result? i = f.flow.result? i
  kept : ∀ {v o}, f.flow.origin? v = some o → (∀ i, f.Within D i → f.flow.result? i ≠ some v) →
    τ v = v ∧ f'.flow.origin? v = some o
  lost : ∀ {i v}, f.Within D i → f.flow.result? i = some v →
    ∃ ty, f.flow.origin? v = some (.result ty i) ∧ f'.flow.origin? (τ v) = some (.undef ty)
  added : ∀ {v o}, f'.flow.origin? v = some o → f.flow.origin? v = some o ∨ o.isConst = true ∨
    o.isUndef = true
  params : f'.flow.params = f.flow.params
  imports : f'.flow.imports = f.flow.imports

end Func

theorem Builder.removeBlock_ok {b : Builder} (h : b.func.Coherent) {c : BlockId}
    (hc : c ∈ b.func.blocks) (hfree : ∀ {i inst}, b.flow.inst? i = some inst → c ∉ inst.blocks) :
    ∃ b' τ, b.removeBlock c = .ok b' ∧ b.func.Stripped b'.func [c] τ := by
  obtain ⟨xs, hxs⟩ : ∃ xs, b.func.insts c = .ok xs := Layout.mem_blocks_iff.1 hc
  have hresult : ∀ {v}, v ∈ xs.filterMap b.flow.result? ↔ ∃ i ∈ xs, b.flow.result? i = some v :=
    List.mem_filterMap
  obtain ⟨b₁, τ, hb₁, hblank⟩ := blankAll_ok h (xs.filterMap b.flow.result?) fun v hv => by
    obtain ⟨i, -, hi⟩ := hresult.1 hv
    obtain ⟨ty, ho, -⟩ := h.flow.result_origin hi
    exact ⟨ty, i, ho⟩
  have hfunc₁ : b₁.func = { b.func with flow := b₁.flow } := congrArg Builder.func hblank.same
  have hunused : ∀ {v}, v ∈ xs.filterMap b.flow.result? → ∀ {j jnst}, b₁.flow.inst? j = some jnst →
      v ∉ jnst.args := by
    intro v hv j jnst hj hmem
    obtain ⟨jnst, hj', rfl⟩ := hblank.rewired.exists_inst hj
    rw [Inst.args_mapArgs] at hmem
    obtain ⟨w, -, rfl⟩ := List.mem_map.1 hmem
    obtain ⟨ty, i, hτ, -⟩ := hblank.blank hv
    by_cases hw : w ∈ xs.filterMap b.flow.result?
    · obtain ⟨ty', i', -, hundef⟩ := hblank.blank hw
      rw [hblank.rewired.origin? hτ] at hundef
      cases hundef
    · rw [hblank.kept hw] at hv
      exact hw hv
  have hinsts₁ : ∀ d, b₁.func.insts d = b.func.insts d := fun d => by rw [hfunc₁]; rfl
  obtain ⟨b₂, hb₂, hcoh₂, hthin, -⟩ := removeInsts_ok hblank.coherent (h.layout.insts_nodup hxs)
    (fun i hi => hblank.coherent.inst_of_mem ((hinsts₁ c).trans hxs) hi)
    fun {pre i post} he v hv j jnst _ hj => by
      refine hunused (hresult.2 ⟨i, ?_, (hblank.rewired.result? i).symm.trans hv⟩) hj
      rw [he]
      exact List.mem_append_right _ List.mem_cons_self
  have hfree₂ : ∀ {i inst}, b₂.flow.inst? i = some inst → c ∉ inst.blocks := by
    intro i inst hi
    obtain ⟨inst, hi', rfl⟩ := hblank.rewired.exists_inst (hthin.inst_of hi).2
    rw [Inst.blocks_mapArgs]
    exact hfree hi'
  have hempty : b₂.func.insts c = .ok [] := by
    rw [hthin.insts_ok ((hinsts₁ c).trans hxs), List.filter_eq_nil_iff.2]
    intro i hi
    simp [hi]
  obtain ⟨g, l, info, table, hg, hl, ht, hcoh, hblocks, hinsts, hR⟩ := hcoh₂.dropBlock hempty hfree₂
  have hwithin : ∀ {i}, b.func.Within [c] i ↔ i ∈ xs := by
    intro i
    constructor
    · rintro ⟨d, ys, hd, hys, hi⟩
      rw [List.mem_singleton.1 hd, hxs] at hys
      cases hys
      exact hi
    · exact fun hi => ⟨c, xs, List.mem_cons_self, hxs, hi⟩
  have hdrop : b₂.dropReferences c = .ok b₂ := by
    unfold dropReferences
    have hnone : (b₂.flow.usersOfBlock c).toList = [] := by
      refine List.eq_nil_iff_forall_not_mem.2 fun i hi => ?_
      obtain ⟨inst, hinst, hblock⟩ := (hcoh₂.flow.blockUsers_iff c i).1 hi
      exact hfree₂ hinst hblock
    rw [hnone]
    rfl
  obtain ⟨b₃, hb₃, hfunc₃⟩ : ∃ b₃, (if b₂.pos = .append c ∨
      b₂.pos = .prepend c then b₂.goTo .none else b₂) = b₃ ∧ b₃.func = b₂.func := by
    refine ⟨_, rfl, ?_⟩
    split <;> rfl
  have hkept : ∀ {v o}, b.flow.origin? v = some o → (∀ i ∈ xs, b.flow.result? i ≠ some v) →
      b₂.flow.origin? v = some o := fun hv hn =>
    hthin.origin? (hblank.rewired.origin? hv) fun i hi hr =>
      hn i hi ((hblank.rewired.result? i).symm.trans hr)
  refine ⟨{ b₃ with func := { b₂.func with flow := g.touch, layout := l, blockTable := table } }, τ,
    ?_, ?_⟩
  · unfold removeBlock
    rw [hxs, ok_bind, hb₁, ok_bind, hb₂, ok_bind, hdrop, ok_bind]
    simp only [hb₃]
    unfold flow
    rw [hfunc₃, hg, ok_bind, hl, ok_bind, ht, ok_bind]
  · refine
      { coherent := hcoh
        sig := by rw [show b₂.func.sig = _ from hthin.alike.sig, hfunc₁]
        blocks := ?_, insts := ?_, inst_iff := ?_, result? := ?_
        kept := ?_, lost := ?_, added := ?_
        params := hR.params.trans (hthin.params.trans hblank.rewired.params)
        imports := hR.imports.trans (hthin.imports.trans hblank.rewired.imports) }
    · show l.blocks = _
      rw [hblocks, hthin.alike.blocks, hfunc₁]
      exact List.filter_congr fun d _ => by simp
    · intro d hd
      have hdc : d ≠ c := fun he => hd (he ▸ List.mem_cons_self)
      refine (hinsts hdc).trans ((hthin.insts d).trans ?_)
      rw [hinsts₁]
      cases hys : b.func.insts d with
      | error e => rfl
      | ok ys =>
        rw [map_ok, List.filter_eq_self.2 fun i hi => ?_]
        simpa using fun hx => hdc (h.layout.one_block hys hxs hi hx)
    · intro i inst'
      show g.inst? i = some inst' ↔ _
      rw [hR.inst?, hwithin, hthin.inst?, Option.map_id']
      by_cases hi : i ∈ xs
      · simp [hi]
      · have hmap : b₁.func.flow.inst? i = (b.func.flow.inst? i).map (·.mapArgs τ) :=
          hblank.rewired.inst? i
        rw [if_neg hi, hmap, Option.map_eq_some_iff]
        simp only [hi, not_false_eq_true, true_and, eq_comm]
    · intro i hi
      rw [hwithin] at hi
      show g.result? i = _
      rw [hR.result?, hthin.result?, if_neg hi]
      exact hblank.rewired.result? i
    · intro v o hv hn
      have hn' : ∀ i ∈ xs, b.flow.result? i ≠ some v := fun i hi => hn i (hwithin.2 hi)
      refine ⟨hblank.kept fun hv => ?_, hR.origin? (hkept hv hn')⟩
      obtain ⟨i, hi, hr⟩ := hresult.1 hv
      exact hn' i hi hr
    · intro i v hi hr
      obtain ⟨ty, j, ho, hundef⟩ := hblank.blank (hresult.2 ⟨i, hwithin.1 hi, hr⟩)
      obtain rfl := h.flow.definer_eq hr ho
      refine ⟨ty, ho, hR.origin? (hthin.origin? hundef fun k _ hk => ?_)⟩
      obtain ⟨ty', ho', -⟩ := hblank.coherent.flow.result_origin hk
      rw [show b₁.func.flow.origin? (τ v) = _ from hundef] at ho'
      cases ho'
    · intro v o hv
      rcases hR.added hv with hv | hv
      · rcases hthin.added hv with hv | hv
        · exact hblank.rewired.added hv
        · exact .inr hv
      · exact .inr hv

end MiddleEnd
