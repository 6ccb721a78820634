import Mathlib.Logic.Relation
import MiddleEnd.Proofs.ChangeSequences
import MiddleEnd.Proofs.LinkedLayout
import MiddleEnd.Proofs.Records

/-!
# Steps of a builder

Every operation of a builder is made of a few kinds of steps: operands change, an instruction comes
or goes, a block comes or goes, the insertion point moves. What a step keeps is proved once for each
kind. The parts of a function are kept together: table of instructions, results, layout, table of
blocks and insertion point.
-/

namespace MiddleEnd

theorem snd_eq_ok {α β : Type} {x : Checked (α × β)} {b : β} :
    (do return (← x).2) = Except.ok b ↔ ∃ a, x = .ok (a, b) := by
  constructor
  · intro h
    obtain ⟨⟨a, b'⟩, hx, h⟩ := bind_eq_ok.1 h
    cases h
    exact ⟨a, hx⟩
  · rintro ⟨a, rfl⟩
    rfl

namespace Inst

def frame : Inst → Inst
  | phi op _ _ => phi op [] []
  | call op f _ => call op f []
  | inst => (inst.mapArgs fun _ => default).mapBlocks fun _ => default

theorem frame_mapArgs (σ : ValueId → ValueId) (inst : Inst) :
    (inst.mapArgs σ).frame = inst.frame := by
  cases inst <;> rfl

theorem frame_mapBlocks (σ : BlockId → BlockId) (inst : Inst) :
    (inst.mapBlocks σ).frame = inst.frame := by
  cases inst <;> rfl

theorem frame_setArg (inst : Inst) (n : Nat) (v : ValueId) :
    (inst.setArg n v).frame = inst.frame := by
  unfold setArg
  split <;> rfl

theorem op_frame (inst : Inst) : inst.frame.op = inst.op := by
  cases inst <;> rfl

theorem callee?_frame (inst : Inst) : inst.frame.callee? = inst.callee? := by
  cases inst <;> rfl

theorem op_of_frame {inst inst' : Inst} (h : inst'.frame = inst.frame) : inst'.op = inst.op := by
  rw [← op_frame, h, op_frame]

theorem callee?_of_frame {inst inst' : Inst} (h : inst'.frame = inst.frame) :
    inst'.callee? = inst.callee? := by
  rw [← callee?_frame, h, callee?_frame]

theorem merges_of_frame {inst : Inst} {op : Opcode} {args : List ValueId} {preds : List BlockId}
    (h : (phi op args preds).frame = inst.frame) : ∃ args' preds', inst = phi op args' preds' := by
  cases inst with
  | phi op' args' preds' =>
    cases h
    exact ⟨args', preds', rfl⟩
  | _ => cases h

/-- What merges is a phi by its operation, with a value for each block. -/
def isShaped : Inst → Bool
  | phi op args preds => op == .phi && args.length == preds.length
  | _ => true

theorem isShaped_phi {op : Opcode} {args : List ValueId} {preds : List BlockId} :
    (phi op args preds).isShaped = true ↔ op = .phi ∧ args.length = preds.length := by
  simp [isShaped]

theorem even_of_isShaped {inst : Inst} (h : inst.isShaped = true) : inst.Even := by
  rintro op args preds rfl
  exact (isShaped_phi.1 h).2

end Inst

namespace DataFlow

/-- Only phis merge values. -/
def PhisMerge (g : DataFlow) : Prop :=
  ∀ {i op args preds}, g.inst? i = some (.phi op args preds) → op = .phi

/-- The second graph has the instructions and results of the first one, with perhaps other operands.
If the epoch has not moved on, terminators still name the blocks they named. -/
structure Kept (g g' : DataFlow) : Prop where
  frame : ∀ i, (g'.inst? i).map Inst.frame = (g.inst? i).map Inst.frame
  result? : ∀ i, g'.result? i = g.result? i
  imports : ∀ {f target}, g.imports.get? f = some target → g'.imports.get? f = some target
  epoch : g.epoch ≤ g'.epoch
  targets : g'.epoch = g.epoch → ∀ {i inst inst'}, g.inst? i = some inst → g'.inst? i = some inst' →
    inst.op.isTerminator = true → inst'.blocks = inst.blocks

namespace Kept

variable {g g' g'' : DataFlow}

theorem inst_of (h : Kept g g') {i : InstId} {inst' : Inst} (hi : g'.inst? i = some inst') :
    ∃ inst, g.inst? i = some inst ∧ inst'.frame = inst.frame := by
  have hf := h.frame i
  rw [hi] at hf
  cases hold : g.inst? i with
  | none =>
    rw [hold] at hf
    cases hf
  | some inst =>
    rw [hold] at hf
    exact ⟨inst, rfl, Option.some.inj hf⟩

theorem inst_ok (h : Kept g g') {i : InstId} {inst : Inst} (hi : g.inst? i = some inst) :
    ∃ inst', g'.inst? i = some inst' ∧ inst'.frame = inst.frame := by
  have hf := h.frame i
  rw [hi] at hf
  cases hnew : g'.inst? i with
  | none =>
    rw [hnew] at hf
    cases hf
  | some inst' =>
    rw [hnew] at hf
    exact ⟨inst', rfl, Option.some.inj hf⟩

theorem exists_inst (h : Kept g g') (i : InstId) :
    (∃ inst, g'.inst? i = some inst) ↔ ∃ inst, g.inst? i = some inst := by
  constructor
  · rintro ⟨inst', hi⟩
    obtain ⟨inst, hold, -⟩ := h.inst_of hi
    exact ⟨inst, hold⟩
  · rintro ⟨inst, hi⟩
    obtain ⟨inst', hnew, -⟩ := h.inst_ok hi
    exact ⟨inst', hnew⟩

theorem trans (h : Kept g g') (h' : Kept g' g'') : Kept g g'' where
  frame i := (h'.frame i).trans (h.frame i)
  result? i := (h'.result? i).trans (h.result? i)
  imports hf := h'.imports (h.imports hf)
  epoch := Nat.le_trans h.epoch h'.epoch
  targets he := by
    intro i inst inst'' hi hi'' hterm
    have hle := h.epoch
    have hle' := h'.epoch
    obtain ⟨inst', hi', hframe⟩ := h.inst_ok hi
    have hterm' : inst'.op.isTerminator = true := by
      rw [Inst.op_of_frame hframe]
      exact hterm
    exact (h'.targets (by omega) hi' hi'' hterm').trans (h.targets (by omega) hi hi' hterm)

theorem of_same (hi : g'.insts = g.insts) (him : g'.imports = g.imports) (he : g.epoch ≤ g'.epoch) :
    Kept g g' where
  frame i := by rw [inst?_of_insts hi]
  result? i := by
    unfold DataFlow.result?
    rw [hi]
  imports hf := by
    rw [him]
    exact hf
  epoch := he
  targets _ := by
    intro i inst inst' hi' hi'' _
    rw [inst?_of_insts hi, hi'] at hi''
    cases hi''
    rfl

theorem refl (g : DataFlow) : Kept g g := of_same rfl rfl (Nat.le_refl _)

theorem of_update {i : InstId} {old inst : Inst} (h : Patched g { g' with epoch := g.epoch } i inst)
    (hi : g.inst? i = some old) (hframe : inst.frame = old.frame) (he : g.epoch ≤ g'.epoch)
    (hb : g'.epoch = g.epoch → old.op.isTerminator = true → inst.blocks = old.blocks) :
    Kept g g' where
  frame j := by
    have hj : g'.inst? j = if j = i then some inst else g.inst? j := h.inst? hi j
    rw [hj]
    by_cases hji : j = i
    · rw [if_pos hji, hji, hi, Option.map_some, Option.map_some, hframe]
    · rw [if_neg hji]
  result? j := (h.rewired hi).result? j
  imports hf := by
    have : g'.imports = g.imports := h.imports
    rw [this]
    exact hf
  epoch := he
  targets heq := by
    intro j jnst jnst' hj hj' hterm
    have hnew : g'.inst? j = if j = i then some inst else g.inst? j := h.inst? hi j
    rw [hnew] at hj'
    by_cases hji : j = i
    · subst hji
      rw [hi] at hj
      cases hj
      rw [if_pos rfl] at hj'
      cases hj'
      exact hb heq hterm
    · rw [if_neg hji, hj] at hj'
      cases hj'
      rfl

theorem of_patched {i : InstId} {old inst : Inst} (h : Patched g g' i inst)
    (hi : g.inst? i = some old) (hframe : inst.frame = old.frame)
    (hb : old.op.isTerminator = true → inst.blocks = old.blocks) : Kept g g' := by
  have h' : Patched g { g' with epoch := g.epoch } i inst := by
    rw [← h.epoch]
    exact h
  exact of_update h' hi hframe (Nat.le_of_eq h.epoch.symm) fun _ => hb

theorem of_retargeted {i : InstId} {old inst : Inst} (h : Patched g g' i inst)
    (hi : g.inst? i = some old) (hframe : inst.frame = old.frame) : Kept g g'.touch := by
  have h' : Patched g { g'.touch with epoch := g.epoch } i inst := by
    rw [← h.epoch]
    exact h
  have hepoch : g'.touch.epoch = g.epoch + 1 := congrArg (· + 1) h.epoch
  exact of_update h' hi hframe (by omega) fun he => absurd he (by omega)

theorem phisMerge (h : Kept g g') (hg : g.PhisMerge) : g'.PhisMerge := by
  intro i op args preds hi
  obtain ⟨inst, hold, hframe⟩ := h.inst_of hi
  obtain ⟨args', preds', rfl⟩ := Inst.merges_of_frame hframe
  exact hg hold

end Kept

variable {g g' : DataFlow}

theorem replaceWithin_kept {old new : ValueId} {i : InstId} {n : Nat}
    (h : g.replaceWithin old new i = .ok (n, g')) :
    Kept g g' := by
  rcases replaceWithin_patched h with rfl | ⟨inst, hi, hp, -⟩
  · exact .refl _
  · exact .of_patched hp hi (Inst.frame_mapArgs _ _) fun _ => Inst.blocks_mapArgs _ _

theorem replaceUse_kept {old new : ValueId} {n : Nat} (h : g.replaceUse old new = .ok (n, g')) :
    Kept g g' :=
  replaceUse_induct h (.refl g) fun hc hstep => hc.trans (replaceWithin_kept hstep)

theorem setArg_kept {i : InstId} {n : Nat} {v : ValueId} (h : g.setArg i n v = .ok g') :
    Kept g g' := by
  obtain ⟨inst, hi, hp, -⟩ := setArg_patched h
  exact .of_patched hp hi (Inst.frame_setArg _ _ _) fun _ => Inst.blocks_setArg _ _ _

theorem replaceBlockWithin_kept {old new : BlockId} {i : InstId} {n : Nat}
    (h : g.replaceBlockWithin old new i = .ok (n, g')) : Kept g g' := by
  rcases replaceBlockWithin_patched h with rfl | ⟨inst, d, hi, -, -, hp, -, rfl⟩
  · exact .refl _
  -- only a terminator makes the epoch move on
  split
  · exact .of_retargeted hp hi (Inst.frame_mapBlocks _ _)
  · rename_i hterm
    exact .of_patched hp hi (Inst.frame_mapBlocks _ _) fun ht => absurd ht hterm

theorem replaceBlockUse_kept {old new : BlockId} {n : Nat}
    (h : g.replaceBlockUse old new = .ok (n, g')) :
    Kept g g' :=
  replaceBlockUse_induct h (.refl g) fun hc hstep => hc.trans (replaceBlockWithin_kept hstep)

theorem PhisMerge.kept (hg : g.PhisMerge) {i : InstId} {op : Opcode} {args args' : List ValueId}
    {preds preds' : List BlockId} (hi : g.inst? i = some (.phi op args preds))
    (h : Patched g g' i (.phi op args' preds')) : Kept g g' := by
  refine .of_patched h hi rfl fun hterm => ?_
  cases hg hi
  cases hterm

theorem addIncoming_kept (hg : g.PhisMerge) {i : InstId} {v : ValueId} {b : BlockId}
    (h : g.addIncoming i v b = .ok g') : Kept g g' := by
  obtain ⟨op, args, preds, hi, hp, -⟩ := addIncoming_patched h
  exact hg.kept hi hp

theorem setIncoming_kept (hg : g.PhisMerge) {i : InstId} {b : BlockId} {v : ValueId}
    (h : g.setIncoming i b v = .ok g') : Kept g g' := by
  rcases setIncoming_cases h with ⟨n, hset⟩ | hadd
  · exact setArg_kept hset
  · exact addIncoming_kept hg hadd

theorem removeIncoming_kept (hg : g.PhisMerge) {i : InstId} {b : BlockId} {n : Nat}
    (h : g.removeIncoming i b = .ok (n, g')) : Kept g g' := by
  rcases removeIncoming_patched h with rfl | ⟨op, args, preds, args', preds', hi, -, hp, -⟩
  · exact .refl _
  · exact hg.kept hi hp

theorem addImport_kept (g : DataFlow) (name : String) (sig : Signature) :
    Kept g (g.addImport name sig).2 := by
  unfold addImport
  split
  · exact .refl g
  · refine ⟨fun _ => rfl, fun _ => rfl, fun hf => Table.get?_add_of_some hf,
      Nat.le_refl _, fun _ => ?_⟩
    intro i inst inst' hi hi' _
    cases hi.symm.trans hi'
    rfl

theorem shared_kept (g : DataFlow) (o : ValueDef) : Kept g (g.shared o).2 := by
  unfold shared
  split
  · exact .refl g
  · exact .of_same rfl rfl (Nat.le_refl _)

theorem insts_of_forgetBlock {c : BlockId} (h : g.forgetBlock c = .ok g') : g'.insts = g.insts := by
  unfold forgetBlock at h
  split at h
  · cases h
    rfl
  · cases h

theorem forgetBlock_kept {c : BlockId} (h : g.forgetBlock c = .ok g') : Kept g g'.touch := by
  unfold forgetBlock at h
  split at h
  · cases h
    exact .of_same rfl rfl (Nat.le_succ _)
  · cases h

theorem clearName_kept (g : DataFlow) (v : ValueId) : Kept g (g.clearName v).2 := by
  obtain ⟨hi, -, -, him, -, he⟩ := clearName_spec g v
  exact .of_same hi him (Nat.le_of_eq he.symm)

/-- The change leaves every instruction where it is. -/
def Change.inPlace : Change → Bool
  | addInst _ _ | removeInst _ => false
  | _ => true

theorem Change.fits_of_inPlace {c : Change} (h : c.inPlace = true) : c.fits = true := by
  cases c with
  | addInst inst ty => cases h
  | _ => rfl

theorem Change.apply_kept (hg : g.PhisMerge) {c : Change} (hc : c.inPlace = true)
    (h : c.apply g = .ok g') :
    Kept g g' := by
  cases c with
  | addInst inst ty => cases hc
  | removeInst i => cases hc
  | const w =>
    cases h
    exact shared_kept g _
  | undef ty =>
    cases h
    exact shared_kept g _
  | addReg ty =>
    cases h
    exact .of_same rfl rfl (Nat.le_refl _)
  | replaceUse old new =>
    obtain ⟨n, hd⟩ := snd_eq_ok.1 h
    exact replaceUse_kept hd
  | replaceWithin old new i =>
    obtain ⟨n, hd⟩ := snd_eq_ok.1 h
    exact replaceWithin_kept hd
  | setArg i n v => exact setArg_kept h
  | replaceBlockUse old new =>
    obtain ⟨n, hd⟩ := snd_eq_ok.1 h
    exact replaceBlockUse_kept hd
  | replaceBlockWithin old new i =>
    obtain ⟨n, hd⟩ := snd_eq_ok.1 h
    exact replaceBlockWithin_kept hd
  | addIncoming i v b => exact addIncoming_kept hg h
  | setIncoming i b v => exact setIncoming_kept hg h
  | removeIncoming i b =>
    obtain ⟨n, hd⟩ := snd_eq_ok.1 h
    exact removeIncoming_kept hg hd
  | setName v name =>
    cases h
    exact (clearName_kept g v).trans (.of_same rfl rfl (Nat.le_refl _))
  | clearName v =>
    cases h
    exact clearName_kept g v

theorem addInst_epoch {inst : Inst} {ty : Ty} {i : InstId} (h : g.addInst inst ty = .ok (i, g')) :
    g'.epoch = g.epoch + if inst.op.isTerminator then 1 else 0 := by
  unfold addInst at h
  obtain ⟨g₁, hg₁, h⟩ := bind_eq_ok.1 h
  have hstart : g₁.epoch = g.epoch + if inst.op.isTerminator then 1 else 0 := by
    refine foldlM_ok_induct (fun _ (c : DataFlow) => c.epoch = _) hg₁ ?_ ?_
    · show (if inst.op.isTerminator then g.touch else g).epoch = _
      split <;> rfl
    · intro pre v post c c' _ hc hstep
      rw [(usersOnly_of_linkUse hstep).epoch, hc]
  have hlinked := fun j => (linkBlocks_spec g₁ j inst.blocks).1.epoch
  dsimp only at h
  split at h
  · cases h
    rw [hlinked, hstart]
  · cases h
    rw [← hstart]
    exact hlinked _

theorem removeInst_epoch {i : InstId} (h : g.removeInst i = .ok g') :
    g'.epoch = g.epoch + if g.isTerminator i then 1 else 0 := by
  obtain ⟨inst, hi, -, hepoch, -⟩ := removeInst_shrinks h
  rw [hepoch, isTerminator_of_inst hi]

end DataFlow

section Neighbours

variable {α : Type} [DecidableEq α]

theorem mem_of_preceding {x y : α} {xs : List α} (hn : xs.Nodup) (h : preceding x xs = some y) :
    y ∈ xs ∧ y ≠ x := by
  fun_induction preceding x xs with
  | case1 a rest =>
    cases h
    obtain ⟨hn, -⟩ := List.nodup_cons.1 hn
    exact ⟨List.mem_cons_self, fun he => hn (he ▸ List.mem_cons_self)⟩
  | case2 a b rest hne ih =>
    obtain ⟨hy, hyx⟩ := ih (List.nodup_cons.1 hn).2 h
    exact ⟨List.mem_cons_of_mem _ hy, hyx⟩
  | case3 xs hxs => cases h

theorem mem_of_following {x y : α} {xs : List α} (hn : xs.Nodup) (h : following x xs = some y) :
    y ∈ xs ∧ y ≠ x := by
  fun_induction following x xs with
  | case1 b rest =>
    cases h
    obtain ⟨hn, -⟩ := List.nodup_cons.1 hn
    exact ⟨List.mem_cons_of_mem _ List.mem_cons_self, fun he => hn (he ▸ List.mem_cons_self)⟩
  | case2 a b rest hne ih =>
    obtain ⟨hy, hyx⟩ := ih (List.nodup_cons.1 hn).2 h
    exact ⟨List.mem_cons_of_mem _ hy, hyx⟩
  | case3 xs hxs => cases h

end Neighbours

namespace Layout

variable {l l' : Layout} {i : InstId}

theorem Proper.mem_allInsts (h : l.Proper) : i ∈ l.allInsts ↔ ∃ c, l.blockOf? i = some c := by
  rw [mem_allInsts_iff h.blocks_nodup]
  constructor
  · rintro ⟨c, xs, hc, hi⟩
    exact ⟨c, h.blockOf?_eq_some.2 ⟨xs, hc, hi⟩⟩
  · rintro ⟨c, hc⟩
    obtain ⟨xs, hxs, hi⟩ := h.blockOf?_eq_some.1 hc
    exact ⟨c, xs, hxs, hi⟩

theorem mem_blocks_of_blockOf? (h : l.Proper) {c : BlockId} (hi : l.blockOf? i = some c) :
    c ∈ l.blocks := by
  obtain ⟨xs, hxs, -⟩ := h.blockOf?_eq_some.1 hi
  exact mem_blocks_iff.2 ⟨xs, hxs⟩

theorem removeInst_of_ok (h : l.Proper) (hr : l.removeInst i = .ok l') :
    l'.Proper ∧ l'.blocks = l.blocks ∧ i ∈ l.allInsts ∧
    ∀ j, l'.blockOf? j = if i = j then none else l.blockOf? j := by
  obtain ⟨c, hc, hr⟩ := bind_eq_ok.1 hr
  cases hr
  have hc := ofOption_eq_ok.1 hc
  obtain ⟨xs, hxs, hi⟩ := h.blockOf?_eq_some.1 hc
  obtain ⟨hproper, hblock⟩ := h.lose hxs hi
  exact ⟨hproper, blocks_editRow _ _ _, h.mem_allInsts.2 ⟨c, hc⟩, hblock⟩

theorem appendInst_of_ok (h : l.Proper) {c : BlockId} (ha : l.appendInst i c = .ok l') :
    l'.Proper ∧ l'.blocks = l.blocks ∧ c ∈ l.blocks ∧
      ∀ j, l'.blockOf? j = if i = j then some c else l.blockOf? j := by
  obtain ⟨⟨⟩, hfresh, ha⟩ := bind_eq_ok.1 ha
  obtain ⟨r, hr, ha⟩ := bind_eq_ok.1 ha
  cases ha
  have hi : i ∉ l.allInsts := by
    unfold checkFresh at hfresh
    split at hfresh
    · cases hfresh
    · rename_i hnone
      exact h.blockOf?_eq_none.1 hnone
  have hc : l.insts c = .ok r.insts := insts_eq_ok.2 ⟨r, ofOption_eq_ok.1 hr, rfl⟩
  obtain ⟨hproper, hblock⟩ := h.gain hc hi (f := (· ++ [i])) (List.perm_append_singleton i r.insts)
  exact ⟨hproper, blocks_editRow _ _ _, mem_blocks_iff.2 ⟨r.insts, hc⟩, hblock⟩

theorem moveInst_of_ok {l'' : Layout} (h : l.Proper) {c : BlockId} (hr : l.removeInst i = .ok l')
    (ha : l'.appendInst i c = .ok l'') :
    l''.Proper ∧ l''.blocks = l.blocks ∧ (∀ j, j ∈ l''.allInsts ↔ j ∈ l.allInsts) ∧
      ∀ j, l''.blockOf? j = if i = j then some c else l.blockOf? j := by
  obtain ⟨hproper, hblocks, hthere, hout⟩ := removeInst_of_ok h hr
  obtain ⟨hproper', hblocks', -, hin⟩ := appendInst_of_ok hproper ha
  have hat : ∀ j, l''.blockOf? j = if i = j then some c else l.blockOf? j := by
    intro j
    rw [hin, hout]
    split <;> rfl
  refine ⟨hproper', hblocks'.trans hblocks, fun j => ?_, hat⟩
  rw [hproper'.mem_allInsts, hat]
  by_cases hj : i = j
  · subst hj
    simp [hthere]
  · rw [if_neg hj, h.mem_allInsts]

theorem Widened.blockOf?_eq {c : BlockId} (hw : l.Widened l' c) (h : l.Proper) (h' : l'.Proper)
    (j : InstId) :
    l'.blockOf? j = l.blockOf? j := by
  apply Option.ext
  intro d
  rw [h'.blockOf?_eq_some, h.blockOf?_eq_some, hw.insts]
  by_cases hd : d = c
  · subst hd
    rw [if_pos rfl]
    constructor
    · rintro ⟨xs, hxs, hj⟩
      cases hxs
      cases hj
    · rintro ⟨xs, hxs, -⟩
      exact absurd (mem_blocks_iff.2 ⟨xs, hxs⟩) hw.fresh
  · rw [if_neg hd]

end Layout

namespace InsertPos

/-- The place is none, or names a block or an instruction of the layout. -/
def Names (l : Layout) : InsertPos → Prop
  | none => True
  | append c | prepend c => c ∈ l.blocks
  | after i | before i => i ∈ l.allInsts

instance (l : Layout) (pos : InsertPos) : Decidable (pos.Names l) :=
  match pos with
  | none => isTrue trivial
  | append c | prepend c => inferInstanceAs (Decidable (c ∈ l.blocks))
  | after i | before i => inferInstanceAs (Decidable (i ∈ l.allInsts))

variable {l l' : Layout} {pos pos' : InsertPos} {i : InstId}

theorem Names.mono (h : pos.Names l) (hblocks : ∀ c ∈ l.blocks, c ∈ l'.blocks)
    (hinsts : ∀ j ∈ l.allInsts, j ∈ l'.allInsts) : pos.Names l' := by
  cases pos with
  | none => trivial
  | append c => exact hblocks c h
  | prepend c => exact hblocks c h
  | after j => exact hinsts j h
  | before j => exact hinsts j h

theorem place_gains (hl : l.Proper) (h : pos.place i l = .ok (pos', l')) :
    l'.Proper ∧ l'.blocks = l.blocks ∧ (∀ j, j ∈ l'.allInsts ↔ j = i ∨ j ∈ l.allInsts) ∧
      ∃ c, ∀ j, l'.blockOf? j = if i = j then some c else l.blockOf? j := by
  obtain ⟨hfresh, c, F, pre, post, rfl, hc, hF⟩ := place_of_ok hl h
  obtain ⟨hproper, hblock⟩ := hl.gain hc hfresh (hF ▸ List.perm_middle)
  refine ⟨hproper, Layout.blocks_editRow _ _ _, fun j => ?_, c, hblock⟩
  rw [hproper.mem_allInsts, hl.mem_allInsts, hblock]
  by_cases hj : i = j
  · simp [hj]
  · simp [hj, Ne.symm hj]

theorem place_spec (hl : l.Proper) (h : pos.place i l = .ok (pos', l')) (hpos : pos.Names l) :
    l'.Proper ∧ l'.blocks = l.blocks ∧ pos'.Names l' ∧
      ∃ c, ∀ j, l'.blockOf? j = if i = j then some c else l.blockOf? j := by
  obtain ⟨hproper, hblocks, hmem, hat⟩ := place_gains hl h
  have hkept : pos.Names l' := hpos.mono (fun d hd => hblocks ▸ hd) fun j hj => (hmem j).2 (.inr hj)
  have hnew : (after i).Names l' := (hmem i).2 (.inl rfl)
  refine ⟨hproper, hblocks, ?_, hat⟩
  cases pos with
  | none => cases h
  | append d =>
    obtain ⟨l₁, -, h⟩ := bind_eq_ok.1 h
    cases h
    exact hkept
  | prepend d =>
    obtain ⟨l₁, -, h⟩ := bind_eq_ok.1 h
    cases h
    exact hnew
  | after j =>
    obtain ⟨l₁, -, h⟩ := bind_eq_ok.1 h
    cases h
    exact hnew
  | before j =>
    obtain ⟨l₁, -, h⟩ := bind_eq_ok.1 h
    cases h
    exact hkept

/-- A place that was released names nothing that is about to go. -/
theorem release_spec (hl : l.Proper) (h : pos.release i l = .ok pos') (hpos : pos.Names l)
    (hblocks : ∀ c ∈ l.blocks, c ∈ l'.blocks) (hinsts : ∀ j ∈ l.allInsts, j ≠ i → j ∈ l'.allInsts) :
    pos'.Names l' := by
  have hblock : ∀ {c}, l.blockOf i = .ok c → c ∈ l'.blocks := fun hc =>
    hblocks _ (Layout.mem_blocks_of_blockOf? hl (ofOption_eq_ok.1 hc))
  have hrow : ∀ {c xs}, l.insts c = .ok xs → ∀ j ∈ xs, j ∈ l.allInsts := fun hc j hj =>
    (Layout.mem_allInsts_iff hl.blocks_nodup).2 ⟨_, _, hc, hj⟩
  unfold release at h
  cases pos with
  | none =>
    cases h
    trivial
  | append c =>
    cases h
    exact hblocks c hpos
  | prepend c =>
    cases h
    exact hblocks c hpos
  | after j =>
    dsimp only at h
    split at h
    · obtain ⟨prev?, hprev, h⟩ := bind_eq_ok.1 h
      obtain ⟨c, hc, hprev⟩ := bind_eq_ok.1 hprev
      obtain ⟨xs, hxs, hprev⟩ := bind_eq_ok.1 hprev
      cases hprev
      cases hp : preceding i xs with
      | some prev =>
        rw [hp] at h
        cases h
        obtain ⟨hmem, hne⟩ := mem_of_preceding (hl.insts_nodup hxs) hp
        exact hinsts prev (hrow hxs prev hmem) hne
      | none =>
        rw [hp] at h
        obtain ⟨d, hd, h⟩ := bind_eq_ok.1 h
        cases h
        exact hblock hd
    · rename_i hne
      cases h
      exact hinsts j hpos hne
  | before j =>
    dsimp only at h
    split at h
    · obtain ⟨next?, hnext, h⟩ := bind_eq_ok.1 h
      obtain ⟨c, hc, hnext⟩ := bind_eq_ok.1 hnext
      obtain ⟨xs, hxs, hnext⟩ := bind_eq_ok.1 hnext
      cases hnext
      cases hp : following i xs with
      | some next =>
        rw [hp] at h
        cases h
        obtain ⟨hmem, hne⟩ := mem_of_following (hl.insts_nodup hxs) hp
        exact hinsts next (hrow hxs next hmem) hne
      | none =>
        rw [hp] at h
        obtain ⟨d, hd, h⟩ := bind_eq_ok.1 h
        cases h
        exact hblock hd
    · rename_i hne
      cases h
      exact hinsts j hpos hne

end InsertPos

/-- Operations that always yield a value. -/
def Opcode.alwaysYields (op : Opcode) : Bool :=
  op == .alloca || op == .load || op.isPhi || op.isPure

/-- The instruction yields a value: by its operation, or because the function it calls returns
one. -/
def Inst.Yields (g : DataFlow) (inst : Inst) : Prop :=
  inst.op.alwaysYields = true ∨
    inst.op = .call ∧ ∃ f target, inst.callee? = some f ∧ g.imports.get? f = some target ∧
    target.sig.returns ≠ .void

/-- The type that an instruction comes with says whether it yields a value, and the function it
calls is known. -/
structure Inst.Fits (inst : Inst) (ty : Ty) (g : DataFlow) : Prop where
  callee : ∀ {f}, inst.callee? = some f → ∃ target, g.imports.get? f = some target
  yields : inst.Yields g ↔ ty ≠ .void

instance (g : DataFlow) (inst : Inst) : Decidable (inst.Yields g) :=
  decidable_of_iff (inst.op.alwaysYields = true ∨
      inst.op = .call ∧ (inst.callee?.bind g.imports.get?).any (·.sig.returns ≠ .void) = true) <| by
    rw [Inst.Yields, Option.any_eq_true]
    simp only [Option.bind_eq_some_iff, decide_eq_true_eq]
    grind

theorem Inst.fits_iff {inst : Inst} {ty : Ty} {g : DataFlow} :
    inst.Fits ty g ↔ inst.callee?.all (fun f => (g.imports.get? f).isSome) = true ∧
    (inst.Yields g ↔ ty ≠ .void) := by
  constructor
  · intro h
    refine ⟨?_, h.yields⟩
    cases hf : inst.callee? with
    | none => rfl
    | some f => exact Option.isSome_iff_exists.2 (h.callee hf)
  · rintro ⟨hcallee, hyields⟩
    refine ⟨fun {f} hf => ?_, hyields⟩
    rw [hf] at hcallee
    exact Option.isSome_iff_exists.1 hcallee

instance (inst : Inst) (ty : Ty) (g : DataFlow) : Decidable (inst.Fits ty g) :=
  decidable_of_iff _ Inst.fits_iff.symm

namespace DataFlow

/-- Callees are known, and instructions have results exactly if they yield values. -/
structure Formed (g : DataFlow) : Prop where
  callee : ∀ {i inst f}, g.inst? i = some inst → inst.callee? = some f →
    ∃ target, g.imports.get? f = some target
  yields : ∀ {i inst}, g.inst? i = some inst → ((∃ v, g.result? i = some v) ↔ inst.Yields g)

variable {g g' : DataFlow}

theorem yields_congr {inst inst' : Inst} (hframe : inst'.frame = inst.frame)
    (himports : ∀ {f target}, g.imports.get? f = some target → g'.imports.get? f = some target)
    (hknown : ∀ {f}, inst.callee? = some f → ∃ target, g.imports.get? f = some target) :
    inst'.Yields g' ↔ inst.Yields g := by
  unfold Inst.Yields
  rw [Inst.op_of_frame hframe, Inst.callee?_of_frame hframe]
  refine or_congr Iff.rfl (and_congr Iff.rfl ⟨?_, ?_⟩)
  · rintro ⟨f, target, hf, ht, hne⟩
    obtain ⟨target', ht'⟩ := hknown hf
    cases ht.symm.trans (himports ht')
    exact ⟨f, target, hf, ht', hne⟩
  · rintro ⟨f, target, hf, ht, hne⟩
    exact ⟨f, target, hf, himports ht, hne⟩

theorem Kept.formed (h : Kept g g') (hg : g.Formed) : g'.Formed where
  callee hi hf := by
    obtain ⟨inst, hold, hframe⟩ := h.inst_of hi
    rw [Inst.callee?_of_frame hframe] at hf
    obtain ⟨target, ht⟩ := hg.callee hold hf
    exact ⟨target, h.imports ht⟩
  yields hi := by
    obtain ⟨inst, hold, hframe⟩ := h.inst_of hi
    rw [h.result?, hg.yields hold, yields_congr hframe h.imports fun hf => hg.callee hold hf]

theorem Grown.inst_cases {i : InstId} {inst : Inst} {ty : Ty} {v? : Option ValueId}
    (h : Grown g g' i inst ty v?) {j : InstId} {jnst : Inst} (hj : g'.inst? j = some jnst) :
    j = i ∧ jnst = inst ∨ j ≠ i ∧ g.inst? j = some jnst := by
  rw [h.inst?] at hj
  split at hj
  · rename_i he
    exact .inl ⟨he, (Option.some.inj hj).symm⟩
  · rename_i hne
    exact .inr ⟨hne, hj⟩

theorem Shrunk.inst_of {i : InstId} (h : Shrunk g g' i) {j : InstId} {jnst : Inst}
    (hj : g'.inst? j = some jnst) :
    j ≠ i ∧ g.inst? j = some jnst := by
  rw [h.inst?] at hj
  split at hj
  · cases hj
  · rename_i hne
    exact ⟨hne, hj⟩

theorem Grown.phisMerge {i : InstId} {inst : Inst} {ty : Ty} {v? : Option ValueId}
    (h : Grown g g' i inst ty v?) (hshape : inst.isShaped = true) (hg : g.PhisMerge) :
    g'.PhisMerge := by
  intro j op args preds hj
  rcases h.inst_cases hj with ⟨-, rfl⟩ | ⟨-, hj⟩
  · exact (Inst.isShaped_phi.1 hshape).1
  · exact hg hj

theorem Shrunk.phisMerge {i : InstId} (h : Shrunk g g' i) (hg : g.PhisMerge) : g'.PhisMerge :=
  fun hj => hg (h.inst_of hj).2

theorem Grown.formed {i : InstId} {inst : Inst} {ty : Ty} {v? : Option ValueId}
    (h : Grown g g' i inst ty v?) (hfits : inst.Fits ty g) (hg : g.Formed) : g'.Formed := by
  have himports : ∀ {f target}, g.imports.get? f = some target →
      g'.imports.get? f = some target := by
    intro f target hf
    rw [h.imports]
    exact hf
  refine ⟨?_, ?_⟩
  · intro j jnst f hj hf
    rw [h.imports]
    rcases h.inst_cases hj with ⟨-, rfl⟩ | ⟨-, hj⟩
    · exact hfits.callee hf
    · exact hg.callee hj hf
  · intro j jnst hj
    rw [h.result?]
    rcases h.inst_cases hj with ⟨rfl, rfl⟩ | ⟨hne, hj⟩
    · rw [if_pos rfl, yields_congr rfl himports hfits.callee, hfits.yields,
        ← Option.isSome_iff_exists, Option.isSome_iff_ne_none, ne_eq, h.yields]
    · rw [if_neg hne, hg.yields hj, yields_congr rfl himports fun hf => hg.callee hj hf]

theorem Shrunk.formed {i : InstId} (h : Shrunk g g' i) (hg : g.Formed) : g'.Formed := by
  have himports : ∀ {f target}, g.imports.get? f = some target →
      g'.imports.get? f = some target := by
    intro f target hf
    rw [h.imports]
    exact hf
  refine ⟨fun hj hf => ?_, fun {j jnst} hj => ?_⟩
  · rw [h.imports]
    exact hg.callee (h.inst_of hj).2 hf
  · obtain ⟨hne, hj⟩ := h.inst_of hj
    rw [h.result?, if_neg hne, hg.yields hj, yields_congr rfl himports fun hf => hg.callee hj hf]

end DataFlow

theorem Func.Coherent.kept {f : Func} (h : f.Coherent) {g : DataFlow} (hg : g.Exact)
    (hk : DataFlow.Kept f.flow g) :
    ({ f with flow := g } : Func).Coherent :=
  ⟨hg, h.layout, fun i => (h.placed i).trans (hk.exists_inst i).symm, h.known⟩

theorem Func.Arranged.nameBlock {f : Func} (h : f.Arranged) {c : BlockId} {info : BlockInfo}
    {table : Table BlockId BlockInfo} (ht : f.blockTable.set c info = .ok table) :
    ({ f with blockTable := table } : Func).Arranged := by
  obtain ⟨old, hold⟩ : ∃ old, f.blockTable.get? c = some old := by
    unfold Table.set at ht
    split at ht
    · rename_i hc
      exact Table.contains_iff.1 hc
    · cases ht
  obtain ⟨table', ht', hget, -⟩ := Table.set_ok info hold
  cases ht.symm.trans ht'
  refine ⟨h.layout, h.placed, fun d => ?_⟩
  have hknown : d ∈ f.layout.blocks ↔ f.blockTable.contains d = true := h.known d
  show d ∈ f.layout.blocks ↔ table.contains d = true
  rw [hknown, Table.contains_iff, Table.contains_iff, hget]
  by_cases hd : d = c
  · subst hd
    simp [hold]
  · rw [if_neg hd]

namespace Builder

/-- What the operations of a builder are made of. `Q` says which instructions may be added with
which types. -/
inductive Step (Q : Inst → Ty → DataFlow → Prop) : Builder → Builder → Prop where
  | edit {b : Builder} {g : DataFlow} (change : DataFlow.Change) (hc : change.inPlace = true)
      (h : change.apply b.flow = .ok g) : Step Q b (b.withFlow g)
  | declare (b : Builder) (name : String) (sig : Signature) :
      Step Q b (b.withFlow (b.flow.addImport name sig).2)
  | goTo {b : Builder} {pos : InsertPos} (h : pos.Names b.func.layout) : Step Q b (b.goTo pos)
  | insert {b b' : Builder} {inst : Inst} {ty : Ty} {i : InstId} (hshape : inst.isShaped = true)
      (hq : Q inst ty b.flow) (h : b.insert inst ty = .ok (i, b')) : Step Q b b'
  | remove {b b' : Builder} {i : InstId} (h : b.removeInst i = .ok b') : Step Q b b'
  | block {b b' : Builder} {name? : Option String} {c : BlockId}
      (h : b.addBlock name? = .ok (c, b')) : Step Q b b'
  | blockAfter {b b' : Builder} {name : String} {after c : BlockId}
      (h : b.addBlockAfter name after = .ok (c, b')) :
      Step Q b b'
  | nameBlock {b b' : Builder} {c : BlockId} {name? : Option String}
      (h : b.setBlockName c name? = .ok b') : Step Q b b'
  /-- A block without instructions goes. -/
  | dropBlock {b : Builder} {c : BlockId} {g : DataFlow} {l : Layout} {info : BlockInfo}
      {table : Table BlockId BlockInfo} (happend : b.pos ≠ .append c)
      (hprepend : b.pos ≠ .prepend c) (hg : b.flow.forgetBlock c = .ok g)
      (hl : b.func.layout.removeBlock c = .ok l)
      (ht : b.func.blockTable.remove c = .ok (info, table)) :
      Step Q b { b with func := { b.func with flow := g.touch, layout := l, blockTable := table } }

/-- The parts of a function fit together, and the insertion point is in it. -/
structure Intact (b : Builder) : Prop where
  coherent : b.func.Coherent
  merge : b.flow.PhisMerge
  pos : b.pos.Names b.func.layout

theorem new_inst? {name : String} {sig : Signature} {i : InstId} {inst : Inst} :
    (Func.new name sig).flow.inst? i ≠ some inst := by
  intro hi
  cases ((Func.new_coherent name sig).placed i).2 ⟨inst, hi⟩

theorem new_intact (name : String) (sig : Signature) : Intact { func := .new name sig } :=
  ⟨Func.new_coherent name sig, fun hi => absurd hi new_inst?, trivial⟩

theorem new_formed (name : String) (sig : Signature) : (Func.new name sig).flow.Formed :=
  ⟨fun hi => absurd hi new_inst?, fun hi => absurd hi new_inst?⟩

variable {b b' : Builder}

theorem removeInst_of_ok (h : b.Intact) {i : InstId} (hr : b.removeInst i = .ok b') :
    b'.Intact ∧ DataFlow.Shrunk b.flow b'.flow i ∧ Func.Alike b.func b'.func ∧
      ∀ j, b'.func.layout.blockOf? j = if i = j then none else b.func.layout.blockOf? j := by
  have hrun := hr
  unfold removeInst at hr
  obtain ⟨pos, hpos, hr⟩ := bind_eq_ok.1 hr
  obtain ⟨l, hl, hr⟩ := bind_eq_ok.1 hr
  obtain ⟨g, hg, hr⟩ := bind_eq_ok.1 hr
  cases hr
  obtain ⟨⟨inst, hi⟩, hfree⟩ := DataFlow.free_of_removeInst h.coherent.flow hg
  obtain ⟨b'', hrun', hcoh, hshrunk, halike, -⟩ := Builder.removeInst_ok h.coherent hi hfree
  rw [hrun] at hrun'
  cases hrun'
  obtain ⟨hproper, hblocks, -, hat⟩ := Layout.removeInst_of_ok h.coherent.layout hl
  refine ⟨⟨hcoh, hshrunk.phisMerge h.merge, ?_⟩, hshrunk, halike, hat⟩
  refine InsertPos.release_spec h.coherent.layout hpos h.pos (fun c hc => hblocks ▸ hc)
    fun j hj hne => ?_
  rw [hproper.mem_allInsts, hat, if_neg (Ne.symm hne), ← h.coherent.layout.mem_allInsts]
  exact hj

theorem insert_intact (h : b.Intact) {inst : Inst} {ty : Ty} {i : InstId}
    (hshape : inst.isShaped = true) (hi : b.insert inst ty = .ok (i, b')) :
    b'.Intact ∧ (∃ v?, DataFlow.Grown b.flow b'.flow i inst ty v?) ∧ Func.Alike b.func b'.func ∧
      ∃ c, ∀ j, b'.func.layout.blockOf? j = if i = j then some c else b.func.layout.blockOf? j := by
  obtain ⟨hcoh, v?, c, pre, post, hins⟩ := insert_of_ok h.coherent (Inst.even_of_isShaped hshape) hi
  unfold insert at hi
  obtain ⟨⟨i', g⟩, hadd, hi⟩ := bind_eq_ok.1 hi
  obtain ⟨⟨pos, l⟩, hplace, hi⟩ := bind_eq_ok.1 hi
  cases hi
  obtain ⟨-, -, hpos, d, hat⟩ := InsertPos.place_spec h.coherent.layout hplace h.pos
  exact ⟨⟨hcoh, hins.grown.phisMerge hshape h.merge, hpos⟩, ⟨v?, hins.grown⟩, hins.alike, d, hat⟩

theorem Intact.widen (h : b.Intact) {c : BlockId} (hcoh : b'.func.Coherent)
    (hwide : b.func.layout.Widened b'.func.layout c) (hflow : b'.flow = b.flow)
    (hpos : b'.pos = b.pos) : b'.Intact := by
  refine ⟨hcoh, hflow ▸ h.merge, ?_⟩
  rw [hpos]
  refine h.pos.mono (fun d hd => hwide.blocks.2 (.inl hd)) fun j hj => ?_
  rw [hcoh.layout.mem_allInsts, hwide.blockOf?_eq h.coherent.layout hcoh.layout,
    ← h.coherent.layout.mem_allInsts]
  exact hj

theorem dropBlock_intact (h : b.Intact) {c : BlockId} {g : DataFlow} {l : Layout} {info : BlockInfo}
    {table : Table BlockId BlockInfo} (happend : b.pos ≠ .append c) (hprepend : b.pos ≠ .prepend c)
    (hg : b.flow.forgetBlock c = .ok g) (hl : b.func.layout.removeBlock c = .ok l)
    (ht : b.func.blockTable.remove c = .ok (info, table)) :
    Intact { b with func := { b.func with flow := g.touch, layout := l, blockTable := table }
      } := by
  have hempty := Layout.insts_of_removeBlock hl
  obtain ⟨-, hfree⟩ := h.coherent.flow.recorded.forgetBlock hg
  obtain ⟨g', l', info', table', hg', hl', ht', hcoh, hblocks, -, hR⟩ :=
    h.coherent.dropBlock hempty hfree
  cases hg.symm.trans hg'
  cases hl.symm.trans hl'
  cases ht.symm.trans ht'
  obtain ⟨l'', hl'', -, -, -, hall⟩ := Layout.removeBlock_ok h.coherent.layout hempty
  cases hl.symm.trans hl''
  refine ⟨hcoh, (DataFlow.forgetBlock_kept hg).phisMerge h.merge, ?_⟩
  have hother : ∀ d, d ∈ b.func.layout.blocks → d ≠ c → d ∈ l.blocks := by
    intro d hd hne
    rw [hblocks]
    exact List.mem_filter.2 ⟨hd, by simpa using hne⟩
  have hpos := h.pos
  show b.pos.Names l
  cases hp : b.pos with
  | none => trivial
  | append d =>
    rw [hp] at hpos happend
    exact hother d hpos fun he => happend (he ▸ rfl)
  | prepend d =>
    rw [hp] at hpos hprepend
    exact hother d hpos fun he => hprepend (he ▸ rfl)
  | after j =>
    rw [hp] at hpos
    exact (hall j).2 hpos
  | before j =>
    rw [hp] at hpos
    exact (hall j).2 hpos

theorem setBlockName_of_ok (h : b.Intact) {c : BlockId} {name? : Option String}
    (hs : b.setBlockName c name? = .ok b') :
    b'.Intact ∧ b'.flow = b.flow ∧ b'.func.layout = b.func.layout := by
  obtain ⟨table, ht, hs⟩ := bind_eq_ok.1 hs
  cases hs
  have harranged := h.coherent.arranged.nameBlock ht
  exact ⟨⟨⟨h.coherent.flow, harranged.layout, harranged.placed, harranged.known⟩, h.merge,
    h.pos⟩, rfl, rfl⟩

theorem Intact.kept (h : b.Intact) {g : DataFlow} (hg : g.Exact) (hk : DataFlow.Kept b.flow g) :
    (b.withFlow g).Intact :=
  ⟨h.coherent.kept hg hk, hk.phisMerge h.merge, h.pos⟩

theorem Step.intact {Q : Inst → Ty → DataFlow → Prop} (hs : Step Q b b') (h : b.Intact) :
    b'.Intact := by
  cases hs with
  | edit change hc hg =>
    exact h.kept (DataFlow.Change.apply_exact h.coherent.flow (DataFlow.Change.fits_of_inPlace hc)
      hg) (DataFlow.Change.apply_kept h.merge hc hg)
  | declare name sig =>
    exact h.kept (h.coherent.addImport name sig).flow (DataFlow.addImport_kept b.flow name sig)
  | goTo hpos => exact ⟨h.coherent, h.merge, hpos⟩
  | insert hshape _ hi => exact (insert_intact h hshape hi).1
  | remove hr => exact (removeInst_of_ok h hr).1
  | block hb =>
    obtain ⟨hcoh, hwide, hflow, hpos⟩ := addBlock_of_ok h.coherent hb
    exact h.widen hcoh hwide hflow hpos
  | blockAfter hb =>
    obtain ⟨hcoh, hwide, hflow, hpos⟩ := addBlockAfter_of_ok h.coherent hb
    exact h.widen hcoh hwide hflow hpos
  | nameBlock hn => exact (setBlockName_of_ok h hn).1
  | dropBlock happend hprepend hg hl ht => exact dropBlock_intact h happend hprepend hg hl ht

theorem Step.formed (hs : Step Inst.Fits b b') (h : b.Intact) (hf : b.flow.Formed) :
    b'.flow.Formed := by
  cases hs with
  | edit change hc hg => exact (DataFlow.Change.apply_kept h.merge hc hg).formed hf
  | declare name sig => exact (DataFlow.addImport_kept b.flow name sig).formed hf
  | goTo => exact hf
  | insert hshape hfits hi =>
    obtain ⟨-, ⟨v?, hgrown⟩, -⟩ := insert_intact h hshape hi
    exact hgrown.formed hfits hf
  | remove hr => exact (removeInst_of_ok h hr).2.1.formed hf
  | block hb => exact (addBlock_of_ok h.coherent hb).2.2.1 ▸ hf
  | blockAfter hb => exact (addBlockAfter_of_ok h.coherent hb).2.2.1 ▸ hf
  | nameBlock hn => exact (setBlockName_of_ok h hn).2.1 ▸ hf
  | dropBlock _ _ hg => exact (DataFlow.forgetBlock_kept hg).formed hf

theorem moveToEnd_of_ok (h : b.Intact) {i : InstId} {c : BlockId} (hm : b.moveToEnd i c = .ok b') :
    b'.Intact ∧ b'.flow = b.flow ∧ Func.Alike b.func b'.func ∧
      ∀ j, b'.func.layout.blockOf? j = if i = j then some c else b.func.layout.blockOf? j := by
  unfold moveToEnd at hm
  obtain ⟨pos, hpos, hm⟩ := bind_eq_ok.1 hm
  obtain ⟨l, hl, hm⟩ := bind_eq_ok.1 hm
  obtain ⟨l', hl', hm⟩ := bind_eq_ok.1 hm
  cases hm
  obtain ⟨hproper, hsame, hmem, hat⟩ := Layout.moveInst_of_ok h.coherent.layout hl hl'
  refine ⟨⟨⟨h.coherent.flow, hproper, fun j => (hmem j).trans (h.coherent.placed j), fun d => ?_⟩,
    h.merge, ?_⟩, rfl, ⟨rfl, rfl, rfl, hsame⟩, hat⟩
  · show d ∈ l'.blocks ↔ _
    rw [hsame]
    exact h.coherent.known d
  · exact InsertPos.release_spec h.coherent.layout hpos h.pos (fun d hd => hsame ▸ hd)
      fun j hj _ => (hmem j).2 hj

end Builder

end MiddleEnd
