import MiddleEnd.Proofs.Building
import MiddleEnd.Proofs.EdgeEdits

/-!
# Records

Instructions that make no sense can be added and wired up as well: phis with more values than
blocks, operations on values that are gone later. Two records are right all the same, after every
edit that goes through. The instructions recorded beside a block are those that refer to it, and a
result is a value that names its instruction.
-/

namespace MiddleEnd.DataFlow

variable {g g' : DataFlow} {i : InstId}

/-- A relation that composes and holds of what edits of instructions do to one table at a time. -/
structure Editing (R : DataFlow → DataFlow → Prop) : Prop where
  refl (g : DataFlow) : R g g
  trans {g g' g'' : DataFlow} : R g g' → R g' g'' → R g g''
  linkUse {g g' : DataFlow} {fault : Fault} {v : ValueId} {i : InstId} : g.linkUse fault v i =
    .ok g' → R g g'
  unlinkUse (g : DataFlow) (v : ValueId) (i : InstId) : R g (g.unlinkUse v i)
  linkBlock (g : DataFlow) (b : BlockId) (i : InstId) : R g (g.linkBlock b i)
  unlinkBlock (g : DataFlow) (b : BlockId) (i : InstId) : R g (g.unlinkBlock b i)
  addValue (g : DataFlow) (o : ValueDef) : R g (g.addValue o).2
  insts (g : DataFlow) (insts : Table InstId InstEntry) : R g { g with insts }
  touch (g : DataFlow) : R g g.touch

namespace Editing

variable {R : DataFlow → DataFlow → Prop}

theorem foldl (hR : Editing R) {α : Type} {f : DataFlow → α → DataFlow}
    (hf : ∀ c x, R c (f c x)) (l : List α) (g : DataFlow) : R g (l.foldl f g) :=
  foldl_induct (fun _ c => R g c) (hR.refl g) fun _ x _ c _ hc => hR.trans hc (hf c x)

theorem putInst (hR : Editing R) (g : DataFlow) (i : InstId) (inst : Inst) :
    R g (g.putInst i inst) := hR.insts g _

theorem touchIf (hR : Editing R) (g : DataFlow) (c : Bool) : R g (if c then g.touch else g) := by
  cases c with
  | false => exact hR.refl g
  | true => exact hR.touch g

theorem shared (hR : Editing R) (g : DataFlow) (o : ValueDef) : R g (g.shared o).2 := by
  unfold DataFlow.shared
  split
  · exact hR.refl g
  · exact hR.addValue g o

theorem addInst (hR : Editing R) {inst : Inst} {ty : Ty} (h : g.addInst inst ty = .ok (i, g')) :
    R g g' := by
  unfold DataFlow.addInst at h
  obtain ⟨g₁, hlink, h⟩ := bind_eq_ok.1 h
  have hstart : R g g₁ := by
    apply hR.trans (hR.trans (hR.touchIf g inst.op.isTerminator) (hR.insts _ _))
    exact foldlM_ok_induct (fun _ c => R _ c) hlink (hR.refl _) fun _ v _ c c' _ hc hstep =>
      hR.trans hc (hR.linkUse hstep)
  dsimp only at h
  have hblocks := fun j => hR.trans hstart (hR.foldl (fun c b => hR.linkBlock c b j) inst.blocks g₁)
  split at h
  · cases h
    exact hblocks _
  · cases h
    exact hR.trans (hR.trans (hblocks _) (hR.addValue _ _)) (hR.insts _ _)

theorem detach (hR : Editing R) (h : g.detach i = .ok g') : R g g' := by
  unfold DataFlow.detach at h
  obtain ⟨⟨e, insts⟩, -, h⟩ := bind_eq_ok.1 h
  cases h
  apply hR.trans (hR.trans (hR.insts g insts) (hR.touchIf _ e.inst.op.isTerminator))
  apply hR.trans (hR.foldl (fun c v => hR.unlinkUse c v i) e.inst.args _)
  exact hR.foldl (fun c b => hR.unlinkBlock c b i) e.inst.blocks _

theorem replaceWithin (hR : Editing R) {old new : ValueId} {n : Nat}
    (h : g.replaceWithin old new i = .ok (n, g')) :
    R g g' := by
  unfold DataFlow.replaceWithin at h
  split at h
  · cases h
    exact hR.refl g
  obtain ⟨inst, -, h⟩ := bind_eq_ok.1 h
  dsimp only at h
  split at h
  · cases h
    exact hR.refl g
  · obtain ⟨g₁, hlink, h⟩ := bind_eq_ok.1 h
    cases h
    exact hR.trans (hR.trans (hR.putInst g i _) (hR.unlinkUse _ old i)) (hR.linkUse hlink)

theorem replaceUse (hR : Editing R) {old new : ValueId} {n : Nat}
    (h : g.replaceUse old new = .ok (n, g')) :
    R g g' :=
  replaceUse_induct h (hR.refl g) fun hc hstep => hR.trans hc (hR.replaceWithin hstep)

theorem setArg (hR : Editing R) {n : Nat} {v : ValueId} (h : g.setArg i n v = .ok g') : R g g' := by
  unfold DataFlow.setArg at h
  obtain ⟨inst, -, h⟩ := bind_eq_ok.1 h
  obtain ⟨old, -, h⟩ := bind_eq_ok.1 h
  dsimp only at h
  apply hR.trans (hR.putInst g i (inst.setArg n v))
  split at h
  · exact hR.linkUse h
  · exact hR.trans (hR.unlinkUse _ old i) (hR.linkUse h)

theorem replaceBlockWithin (hR : Editing R) {old new : BlockId} {n : Nat}
    (h : g.replaceBlockWithin old new i = .ok (n, g')) : R g g' := by
  unfold DataFlow.replaceBlockWithin at h
  split at h
  · cases h
    exact hR.refl g
  obtain ⟨inst, -, h⟩ := bind_eq_ok.1 h
  dsimp only at h
  split at h
  · cases h
    exact hR.refl g
  · cases h
    apply hR.trans _ (hR.touchIf _ inst.op.isTerminator)
    exact hR.trans (hR.trans (hR.putInst g i _) (hR.unlinkBlock _ old i)) (hR.linkBlock _ new i)

theorem replaceBlockUse (hR : Editing R) {old new : BlockId} {n : Nat}
    (h : g.replaceBlockUse old new = .ok (n, g')) : R g g' :=
  replaceBlockUse_induct h (hR.refl g) fun hc hstep => hR.trans hc (hR.replaceBlockWithin hstep)

theorem addIncoming (hR : Editing R) {v : ValueId} {b : BlockId}
    (h : g.addIncoming i v b = .ok g') : R g g' := by
  unfold DataFlow.addIncoming at h
  obtain ⟨⟨op, args, preds⟩, -, h⟩ := bind_eq_ok.1 h
  obtain ⟨g₁, hlink, h⟩ := bind_eq_ok.1 h
  cases h
  exact hR.trans (hR.trans (hR.putInst g i _) (hR.linkUse hlink)) (hR.linkBlock _ b i)

theorem setIncoming (hR : Editing R) {b : BlockId} {v : ValueId}
    (h : g.setIncoming i b v = .ok g') : R g g' := by
  rcases setIncoming_cases h with ⟨n, hset⟩ | hadd
  · exact hR.setArg hset
  · exact hR.addIncoming hadd

theorem removeIncoming (hR : Editing R) {b : BlockId} {n : Nat}
    (h : g.removeIncoming i b = .ok (n, g')) :
    R g g' := by
  unfold DataFlow.removeIncoming at h
  obtain ⟨⟨op, args, preds⟩, -, h⟩ := bind_eq_ok.1 h
  obtain ⟨⟨dropped, args', preds'⟩, -, h⟩ := bind_eq_ok.1 h
  dsimp only at h
  split at h
  · cases h
    exact hR.refl g
  · cases h
    apply hR.trans (hR.trans (hR.putInst g i _) (hR.unlinkBlock _ b i))
    refine hR.foldl (fun c w => ?_) dropped _
    split
    · exact hR.refl c
    · exact hR.unlinkUse c w i

end Editing

theorem replaceWithin_patched {old new : ValueId} {n : Nat}
    (h : g.replaceWithin old new i = .ok (n, g')) :
    g' = g ∨ ∃ inst, g.inst? i = some inst ∧ Patched g g' i (inst.mapArgs (swap old new)) ∧
      g'.blockUsers = g.blockUsers := by
  unfold replaceWithin at h
  split at h
  · cases h
    exact .inl rfl
  obtain ⟨inst, hinst, h⟩ := bind_eq_ok.1 h
  dsimp only at h
  split at h
  · cases h
    exact .inl rfl
  obtain ⟨g₁, hlink, h⟩ := bind_eq_ok.1 h
  cases h
  have hunlink := (unlinkUse_spec (g.putInst i (inst.mapArgs (swap old new))) old i).1
  have hlinked := usersOnly_of_linkUse hlink
  refine .inr ⟨inst, inst_eq_ok.1 hinst, ?_, hlinked.blockUsers.trans hunlink.blockUsers⟩
  exact ((putInst_patched g i _).usersOnly hunlink).usersOnly hlinked

theorem setArg_patched {n : Nat} {v : ValueId} (h : g.setArg i n v = .ok g') :
    ∃ inst, g.inst? i = some inst ∧ Patched g g' i (inst.setArg n v) ∧
      g'.blockUsers = g.blockUsers := by
  unfold setArg at h
  obtain ⟨inst, hinst, h⟩ := bind_eq_ok.1 h
  obtain ⟨old, -, h⟩ := bind_eq_ok.1 h
  dsimp only at h
  have hput := putInst_patched g i (inst.setArg n v)
  have hlinked := usersOnly_of_linkUse h
  refine ⟨inst, inst_eq_ok.1 hinst, ?_⟩
  split at hlinked
  · exact ⟨hput.usersOnly hlinked, hlinked.blockUsers⟩
  · have hunlink := (unlinkUse_spec (g.putInst i (inst.setArg n v)) old i).1
    exact ⟨(hput.usersOnly hunlink).usersOnly hlinked, hlinked.blockUsers.trans hunlink.blockUsers⟩

theorem replaceBlockWithin_patched {old new : BlockId} {n : Nat}
    (h : g.replaceBlockWithin old new i = .ok (n, g')) :
    g' = g ∨ ∃ inst d, g.inst? i = some inst ∧ old ≠ new ∧ old ∈ inst.blocks ∧
      Patched g d i (inst.mapBlocks (reroute old new)) ∧
      (∀ c j, j ∈ d.usersOfBlock c ↔ j ∈ g.usersOfBlock c ∧ ¬ (c = old ∧ j = i) ∨ c = new ∧ j = i) ∧
      g' = if inst.op.isTerminator then d.touch else d := by
  unfold replaceBlockWithin at h
  split at h
  · cases h
    exact .inl rfl
  rename_i hne
  obtain ⟨inst, hinst, h⟩ := bind_eq_ok.1 h
  dsimp only at h
  split at h
  · cases h
    exact .inl rfl
  rename_i hcount
  cases h
  have hold : old ∈ inst.blocks :=
    Decidable.byContradiction fun hn => hcount (List.count_eq_zero.2 hn)
  refine .inr ⟨inst, _, inst_eq_ok.1 hinst, hne, hold, ?_, fun c j => ?_, rfl⟩
  · exact ((putInst_patched g i (inst.mapBlocks (reroute old new))).blockUsersOnly
      (unlinkBlock_blockUsersOnly _ old i)).blockUsersOnly (linkBlock_blockUsersOnly _ new i)
  · rw [mem_usersOfBlock_linkBlock, mem_usersOfBlock_unlinkBlock]
    exact Iff.rfl

theorem addIncoming_patched {v : ValueId} {b : BlockId} (h : g.addIncoming i v b = .ok g') :
    ∃ op args preds, g.inst? i = some (.phi op args preds) ∧
      Patched g g' i (.phi op (args ++ [v]) (preds ++ [b])) ∧
      ∀ c j, j ∈ g'.usersOfBlock c ↔ j ∈ g.usersOfBlock c ∨ c = b ∧ j = i := by
  unfold addIncoming at h
  obtain ⟨⟨op, args, preds⟩, hlists, h⟩ := bind_eq_ok.1 h
  obtain ⟨g₁, hlink, h⟩ := bind_eq_ok.1 h
  cases h
  have hlinked := usersOnly_of_linkUse hlink
  refine ⟨op, args, preds, phiLists_of_ok hlists, ?_, fun c j => ?_⟩
  · exact ((putInst_patched g i _).usersOnly hlinked).blockUsersOnly
      (linkBlock_blockUsersOnly _ b i)
  · rw [mem_usersOfBlock_linkBlock, usersOfBlock_of_blockUsers hlinked.blockUsers]
    exact Iff.rfl

theorem mem_of_dropEdges {b : BlockId} {kept most : Nat} {args args' dropped : List ValueId}
    {preds preds' : List BlockId}
    (h : dropEdges b kept most args preds = .ok (dropped, args', preds')) (p : BlockId) :
    p ∈ preds' ↔ p ∈ preds ∧ p ≠ b := by
  fun_induction dropEdges b kept most args preds generalizing dropped args' preds' with
  | case1 kept most vs =>
    cases h
    simp
  | case2 kept most v vs ps ih =>
    obtain ⟨⟨d, vs', ps'⟩, hd, h⟩ := bind_eq_ok.1 h
    cases h
    rw [ih hd, List.mem_cons]
    grind
  | case3 kept most v vs p' ps hne ih =>
    obtain ⟨⟨d, vs', ps'⟩, hd, h⟩ := bind_eq_ok.1 h
    cases h
    rw [List.mem_cons, ih hd, List.mem_cons]
    grind
  | case4 kept most ps => cases h
  | case5 kept most p' ps hne ih =>
    obtain ⟨⟨d, vs', ps'⟩, hd, h⟩ := bind_eq_ok.1 h
    cases h
    rw [List.mem_cons, ih hd, List.mem_cons]
    grind

theorem removeIncoming_patched {b : BlockId} {n : Nat} (h : g.removeIncoming i b = .ok (n, g')) :
    g' = g ∨ ∃ op args preds args' preds', g.inst? i = some (.phi op args preds) ∧
      (∀ p, p ∈ preds' ↔ p ∈ preds ∧ p ≠ b) ∧ Patched g g' i (.phi op args' preds') ∧
      ∀ c j, j ∈ g'.usersOfBlock c ↔ j ∈ g.usersOfBlock c ∧ ¬ (c = b ∧ j = i) := by
  unfold removeIncoming at h
  obtain ⟨⟨op, args, preds⟩, hlists, h⟩ := bind_eq_ok.1 h
  obtain ⟨⟨dropped, args', preds'⟩, hdrop, h⟩ := bind_eq_ok.1 h
  dsimp only at h
  split at h
  · cases h
    exact .inl rfl
  cases h
  have hdropped := (unlinkDropped_spec ((g.putInst i (.phi op args' preds')).unlinkBlock b i) i
    args' dropped).1
  refine .inr ⟨op, args, preds, args', preds', phiLists_of_ok hlists, mem_of_dropEdges hdrop, ?_,
    fun c j => ?_⟩
  · exact ((putInst_patched g i (.phi op args' preds')).blockUsersOnly
      (unlinkBlock_blockUsersOnly _ b i)).usersOnly hdropped
  · rw [usersOfBlock_of_blockUsers hdropped.blockUsers, mem_usersOfBlock_unlinkBlock]
    exact Iff.rfl

structure Recorded (g : DataFlow) : Prop where
  blockUsers_iff : ∀ b i, i ∈ g.usersOfBlock b ↔ ∃ inst, g.inst? i = some inst ∧ b ∈ inst.blocks
  result_origin : ∀ {i v}, g.result? i = some v → ∃ ty, g.origin? v = some (.result ty i)

theorem Exact.recorded (h : g.Exact) : g.Recorded := by
  refine ⟨h.blockUsers_iff, fun hv => ?_⟩
  obtain ⟨ty, ho, -⟩ := h.result_origin hv
  exact ⟨ty, ho⟩

namespace Recorded

variable {inst old : Inst}

theorem congr (h : g.Recorded) (hi : g'.insts = g.insts) (hb : g'.blockUsers = g.blockUsers)
    (ho : ∀ {v o}, g.origin? v = some o → g'.origin? v = some o) : g'.Recorded where
  blockUsers_iff b j := by
    rw [usersOfBlock_of_blockUsers hb, h.blockUsers_iff, inst?_of_insts hi]
  result_origin {j v} hv := by
    have hr : g.result? j = some v := by
      rw [← hv, DataFlow.result?, DataFlow.result?, hi]
    obtain ⟨ty, hty⟩ := h.result_origin hr
    exact ⟨ty, ho hty⟩

theorem touch (h : g.Recorded) : g.touch.Recorded := h.congr rfl rfl fun ho => ho

theorem patched (h : g.Recorded) (hp : Patched g g' i inst) (hi : g.inst? i = some old)
    (hb : ∀ b j, j ∈ g'.usersOfBlock b ↔ if j = i then b ∈ inst.blocks else j ∈ g.usersOfBlock b) :
    g'.Recorded where
  blockUsers_iff b j := by
    rw [hb, hp.inst? hi]
    by_cases hj : j = i
    · simp [hj]
    · rw [if_neg hj, if_neg hj, h.blockUsers_iff]
  result_origin {j v} hv := by
    rw [(hp.rewired hi).result?] at hv
    obtain ⟨ty, ho⟩ := h.result_origin hv
    exact ⟨ty, (hp.origins v).trans ho⟩

theorem recorded_iff (h : g.Recorded) (hi : g.inst? i = some inst) (b : BlockId) :
    i ∈ g.usersOfBlock b ↔ b ∈ inst.blocks := by
  rw [h.blockUsers_iff, hi]
  simp

theorem sameBlocks (h : g.Recorded) (hp : Patched g g' i inst) (hi : g.inst? i = some old)
    (hblocks : inst.blocks = old.blocks) (hb : g'.blockUsers = g.blockUsers) : g'.Recorded := by
  refine h.patched hp hi fun b j => ?_
  rw [usersOfBlock_of_blockUsers hb]
  by_cases hj : j = i
  · rw [if_pos hj, hj, h.recorded_iff hi, hblocks]
  · rw [if_neg hj]

theorem replaceWithin (h : g.Recorded) {v w : ValueId} {n : Nat}
    (hr : g.replaceWithin v w i = .ok (n, g')) :
    g'.Recorded := by
  rcases replaceWithin_patched hr with rfl | ⟨inst, hi, hp, hb⟩
  · exact h
  · exact h.sameBlocks hp hi (Inst.blocks_mapArgs _ _) hb

theorem replaceUse (h : g.Recorded) {v w : ValueId} {n : Nat}
    (hr : g.replaceUse v w = .ok (n, g')) :
    g'.Recorded := replaceUse_induct hr h fun hc hstep => replaceWithin hc hstep

theorem setArg (h : g.Recorded) {n : Nat} {v : ValueId} (hs : g.setArg i n v = .ok g') :
    g'.Recorded := by
  obtain ⟨inst, hi, hp, hb⟩ := setArg_patched hs
  exact h.sameBlocks hp hi (Inst.blocks_setArg _ _ _) hb

theorem replaceBlockWithin (h : g.Recorded) {b c : BlockId} {n : Nat}
    (hr : g.replaceBlockWithin b c i = .ok (n, g')) : g'.Recorded := by
  rcases replaceBlockWithin_patched hr with rfl | ⟨inst, d, hi, hne, hold, hp, hb, rfl⟩
  · exact h
  have hd : d.Recorded := by
    refine h.patched hp hi fun e j => ?_
    rw [hb]
    by_cases hj : j = i
    · rw [if_pos hj, hj, h.recorded_iff hi, Inst.blocks_mapBlocks, mem_map_reroute hne hold]
      simp
    · simp [hj]
  split
  · exact hd.touch
  · exact hd

theorem replaceBlockUse (h : g.Recorded) {b c : BlockId} {n : Nat}
    (hr : g.replaceBlockUse b c = .ok (n, g')) :
    g'.Recorded := replaceBlockUse_induct hr h fun hc hstep => replaceBlockWithin hc hstep

theorem addIncoming (h : g.Recorded) {v : ValueId} {b : BlockId}
    (ha : g.addIncoming i v b = .ok g') :
    g'.Recorded := by
  obtain ⟨op, args, preds, hi, hp, hb⟩ := addIncoming_patched ha
  refine h.patched hp hi fun c j => ?_
  rw [hb]
  by_cases hj : j = i
  · rw [if_pos hj, hj, h.recorded_iff hi]
    simp [Inst.blocks]
  · simp [hj]

theorem setIncoming (h : g.Recorded) {v : ValueId} {b : BlockId}
    (hs : g.setIncoming i b v = .ok g') :
    g'.Recorded := by
  rcases setIncoming_cases hs with ⟨n, hset⟩ | hadd
  · exact h.setArg hset
  · exact h.addIncoming hadd

theorem removeIncoming (h : g.Recorded) {b : BlockId} {n : Nat}
    (hr : g.removeIncoming i b = .ok (n, g')) :
    g'.Recorded := by
  rcases removeIncoming_patched hr with rfl | ⟨op, args, preds, args', preds', hi, hmem, hp, hb⟩
  · exact h
  refine h.patched hp hi fun c j => ?_
  rw [hb]
  by_cases hj : j = i
  · rw [if_pos hj, hj, h.recorded_iff hi]
    simp [Inst.blocks, hmem]
  · simp [hj]

theorem addValue (h : g.Recorded) (o : ValueDef) : (g.addValue o).2.Recorded :=
  h.congr rfl rfl fun ho => origin?_addValue_of_some o ho

theorem shared (h : g.Recorded) (o : ValueDef) : (g.shared o).2.Recorded := by
  unfold DataFlow.shared
  split
  · exact h
  · exact h.addValue o

theorem clearName (h : g.Recorded) (v : ValueId) : (g.clearName v).2.Recorded := by
  obtain ⟨hi, hv, -, -, hb, -⟩ := clearName_spec g v
  refine h.congr hi hb fun ho => ?_
  rw [origin?, hv]
  exact ho

theorem addImport (h : g.Recorded) (name : String) (sig : Signature) :
    (g.addImport name sig).2.Recorded := by
  unfold DataFlow.addImport
  split
  · exact h
  · exact h.congr rfl rfl fun ho => ho

theorem forgetBlock (h : g.Recorded) {b : BlockId} (hf : g.forgetBlock b = .ok g') :
    g'.Recorded ∧ ∀ {i inst}, g.inst? i = some inst → b ∉ inst.blocks := by
  unfold DataFlow.forgetBlock at hf
  split at hf
  · rename_i hnone
    cases hf
    have hfree : ∀ {i inst}, g.inst? i = some inst → b ∉ inst.blocks := fun {i inst} hi hb =>
      KeySet.isEmpty_iff.1 hnone i ((h.recorded_iff hi b).2 hb)
    refine ⟨⟨fun c j => ?_, h.result_origin⟩, hfree⟩
    by_cases hc : c = b
    · subst hc
      simp only [usersOfBlock, Dict.get?_erase, if_pos, Option.getD_none,
        KeySet.not_mem_emptyc, false_iff]
      rintro ⟨inst, hi, hb⟩
      exact hfree hi hb
    · have husers : ({ g with blockUsers := g.blockUsers.erase b } : DataFlow).usersOfBlock c =
          g.usersOfBlock c := by
        simp [usersOfBlock, Ne.symm hc]
      rw [husers]
      exact h.blockUsers_iff c j
  · cases hf

theorem addInst (h : g.Recorded) {ty : Ty} (ha : g.addInst inst ty = .ok (i, g')) :
    g'.Recorded ∧ ∃ v?, Grown g g' i inst ty v? := by
  obtain ⟨j, g'', v?, hadd, hgrown, -, hblocks⟩ := addInst_grows ty (args_of_addInst ha)
  cases ha.symm.trans hadd
  refine ⟨⟨fun b j => ?_, fun {j v} hv => ?_⟩, v?, hgrown⟩
  · rw [hblocks, hgrown.inst?, h.blockUsers_iff]
    by_cases hj : j = i
    · simp [hj, hgrown.fresh]
    · simp [hj]
  · rw [hgrown.result?] at hv
    split at hv
    · rename_i hj
      exact ⟨ty, by rw [hgrown.origin?, if_pos hv, hj]⟩
    · obtain ⟨ty', ho⟩ := h.result_origin hv
      refine ⟨ty', ?_⟩
      rw [hgrown.origin?, if_neg, ho]
      intro hnew
      rw [hgrown.value_fresh v hnew] at ho
      cases ho

theorem removeInst (h : g.Recorded) (hr : g.removeInst i = .ok g') :
    g'.Recorded ∧ Shrunk g g' i := by
  obtain ⟨inst, hi, hshrunk, -, -, hblocks⟩ := removeInst_shrinks hr
  refine ⟨⟨fun b j => ?_, fun {j v} hv => ?_⟩, hshrunk⟩
  · rw [hblocks, hshrunk.inst?, h.blockUsers_iff]
    by_cases hj : j = i
    · simp [hj, hi]
    · simp [hj]
  · rw [hshrunk.result?] at hv
    split at hv
    · cases hv
    · rename_i hj
      obtain ⟨ty, ho⟩ := h.result_origin hv
      refine ⟨ty, ?_⟩
      rw [hshrunk.origin?, if_neg, ho]
      intro hgone
      -- a value is the result of one instruction only
      obtain ⟨ty', ho'⟩ := h.result_origin hgone
      rw [ho] at ho'
      cases ho'
      exact hj rfl

end Recorded

end MiddleEnd.DataFlow
