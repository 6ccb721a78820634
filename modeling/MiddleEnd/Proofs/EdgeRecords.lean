import MiddleEnd.Proofs.BuilderHistories
import MiddleEnd.Proofs.Verification

/-!
# Records of edges

Who leads to a block is told in two ways: the graph records which instructions name the block, and a
snapshot looks at the last instruction of every block. The records are right after every operation
that goes through, whatever the instructions look like. So the two ways agree as soon as nothing
stands behind a terminator.
-/

namespace MiddleEnd

namespace DataFlow

variable {g g' g'' : DataFlow}

/-- The second graph has the instructions and imports of the first one; operands and blocks may be
others. -/
structure Framed (g g' : DataFlow) : Prop where
  frame : ∀ i, (g'.inst? i).map Inst.frame = (g.inst? i).map Inst.frame
  imports : g'.imports = g.imports

namespace Framed

theorem trans (h : Framed g g') (h' : Framed g' g'') : Framed g g'' :=
  ⟨fun i => (h'.frame i).trans (h.frame i), h'.imports.trans h.imports⟩

theorem of_same (hi : g'.insts = g.insts) (him : g'.imports = g.imports) : Framed g g' :=
  ⟨fun i => by rw [inst?_of_insts hi], him⟩

theorem refl (g : DataFlow) : Framed g g := of_same rfl rfl

theorem of_patched {i : InstId} {old inst : Inst} (h : Patched g g' i inst)
    (hi : g.inst? i = some old) (hframe : inst.frame = old.frame) : Framed g g' := by
  refine ⟨fun j => ?_, h.imports⟩
  rw [h.inst? hi]
  by_cases hj : j = i
  · rw [if_pos hj, hj, hi, Option.map_some, Option.map_some, hframe]
  · rw [if_neg hj]

theorem inst_of (h : Framed g g') {i : InstId} {inst' : Inst} (hi : g'.inst? i = some inst') :
    ∃ inst, g.inst? i = some inst ∧ inst.frame = inst'.frame := by
  have hf := h.frame i
  rw [hi, Option.map_some] at hf
  exact Option.map_eq_some_iff.1 hf.symm

theorem exists_inst (h : Framed g g') (i : InstId) :
    (∃ inst, g'.inst? i = some inst) ↔ ∃ inst, g.inst? i = some inst := by
  rw [← Option.isSome_iff_exists, ← Option.isSome_iff_exists,
    ← Option.isSome_map (f := Inst.frame), h.frame, Option.isSome_map]

end Framed

theorem replaceWithin_framed {old new : ValueId} {i : InstId} {n : Nat}
    (h : g.replaceWithin old new i = .ok (n, g')) : Framed g g' := by
  rcases replaceWithin_patched h with rfl | ⟨inst, hi, hp, -⟩
  · exact .refl _
  · exact .of_patched hp hi (Inst.frame_mapArgs _ _)

theorem replaceUse_framed {old new : ValueId} {n : Nat} (h : g.replaceUse old new = .ok (n, g')) :
    Framed g g' :=
  replaceUse_induct h (.refl g) fun hc hstep => hc.trans (replaceWithin_framed hstep)

theorem setArg_framed {i : InstId} {n : Nat} {v : ValueId} (h : g.setArg i n v = .ok g') :
    Framed g g' := by
  obtain ⟨inst, hi, hp, -⟩ := setArg_patched h
  exact .of_patched hp hi (Inst.frame_setArg _ _ _)

theorem replaceBlockWithin_framed {old new : BlockId} {i : InstId} {n : Nat}
    (h : g.replaceBlockWithin old new i = .ok (n, g')) : Framed g g' := by
  rcases replaceBlockWithin_patched h with rfl | ⟨inst, d, hi, -, -, hp, -, rfl⟩
  · exact .refl _
  -- the epoch is no matter of the instructions
  have hd : Framed g d := .of_patched hp hi (Inst.frame_mapBlocks _ _)
  split
  · exact hd.trans (.of_same rfl rfl)
  · exact hd

theorem replaceBlockUse_framed {old new : BlockId} {n : Nat}
    (h : g.replaceBlockUse old new = .ok (n, g')) :
    Framed g g' :=
  replaceBlockUse_induct h (.refl g) fun hc hstep => hc.trans (replaceBlockWithin_framed hstep)

theorem addIncoming_framed {i : InstId} {v : ValueId} {b : BlockId}
    (h : g.addIncoming i v b = .ok g') :
    Framed g g' := by
  obtain ⟨op, args, preds, hi, hp, -⟩ := addIncoming_patched h
  exact .of_patched hp hi rfl

theorem setIncoming_framed {i : InstId} {b : BlockId} {v : ValueId}
    (h : g.setIncoming i b v = .ok g') :
    Framed g g' := by
  rcases setIncoming_cases h with ⟨n, hset⟩ | hadd
  · exact setArg_framed hset
  · exact addIncoming_framed hadd

theorem removeIncoming_framed {i : InstId} {b : BlockId} {n : Nat}
    (h : g.removeIncoming i b = .ok (n, g')) :
    Framed g g' := by
  rcases removeIncoming_patched h with rfl | ⟨op, args, preds, args', preds', hi, -, hp, -⟩
  · exact .refl _
  · exact .of_patched hp hi rfl

theorem shared_framed (g : DataFlow) (o : ValueDef) : Framed g (g.shared o).2 := by
  unfold shared
  split
  · exact .refl g
  · exact .of_same rfl rfl

theorem clearName_framed (g : DataFlow) (v : ValueId) : Framed g (g.clearName v).2 := by
  obtain ⟨hi, -, -, him, -, -⟩ := clearName_spec g v
  exact .of_same hi him

theorem setName_framed (g : DataFlow) (v : ValueId) (name : String) : Framed g (g.setName v name) :=
  (clearName_framed g v).trans (.of_same rfl rfl)

theorem forgetBlock_framed {c : BlockId} (h : g.forgetBlock c = .ok g') : Framed g g'.touch := by
  unfold forgetBlock at h
  split at h
  · cases h
    exact .of_same rfl rfl
  · cases h

theorem Change.apply_framed {c : Change} (hc : c.inPlace = true) (h : c.apply g = .ok g') :
    Framed g g' := by
  cases c with
  | addInst inst ty => cases hc
  | removeInst i => cases hc
  | const w =>
    cases h
    exact shared_framed g _
  | undef ty =>
    cases h
    exact shared_framed g _
  | addReg ty =>
    cases h
    exact .of_same rfl rfl
  | replaceUse old new =>
    obtain ⟨n, hd⟩ := snd_eq_ok.1 h
    exact replaceUse_framed hd
  | replaceWithin old new i =>
    obtain ⟨n, hd⟩ := snd_eq_ok.1 h
    exact replaceWithin_framed hd
  | setArg i n v => exact setArg_framed h
  | replaceBlockUse old new =>
    obtain ⟨n, hd⟩ := snd_eq_ok.1 h
    exact replaceBlockUse_framed hd
  | replaceBlockWithin old new i =>
    obtain ⟨n, hd⟩ := snd_eq_ok.1 h
    exact replaceBlockWithin_framed hd
  | addIncoming i v b => exact addIncoming_framed h
  | setIncoming i b v => exact setIncoming_framed h
  | removeIncoming i b =>
    obtain ⟨n, hd⟩ := snd_eq_ok.1 h
    exact removeIncoming_framed hd
  | setName v name =>
    cases h
    exact setName_framed g v name
  | clearName v =>
    cases h
    exact clearName_framed g v

theorem Change.apply_recorded (h : g.Recorded) {c : Change} (hc : c.inPlace = true)
    (ha : c.apply g = .ok g') :
    g'.Recorded := by
  cases c with
  | addInst inst ty => cases hc
  | removeInst i => cases hc
  | const w =>
    cases ha
    exact h.shared _
  | undef ty =>
    cases ha
    exact h.shared _
  | addReg ty =>
    cases ha
    exact h.addValue _
  | replaceUse old new =>
    obtain ⟨n, ha⟩ := snd_eq_ok.1 ha
    exact h.replaceUse ha
  | replaceWithin old new i =>
    obtain ⟨n, ha⟩ := snd_eq_ok.1 ha
    exact h.replaceWithin ha
  | setArg i n v => exact h.setArg ha
  | replaceBlockUse old new =>
    obtain ⟨n, ha⟩ := snd_eq_ok.1 ha
    exact h.replaceBlockUse ha
  | replaceBlockWithin old new i =>
    obtain ⟨n, ha⟩ := snd_eq_ok.1 ha
    exact h.replaceBlockWithin ha
  | addIncoming i v b => exact h.addIncoming ha
  | setIncoming i b v => exact h.setIncoming ha
  | removeIncoming i b =>
    obtain ⟨n, ha⟩ := snd_eq_ok.1 ha
    exact h.removeIncoming ha
  | setName v name =>
    cases ha
    exact (h.clearName v).congr rfl rfl fun ho => ho
  | clearName v =>
    cases ha
    exact h.clearName v

end DataFlow

namespace Func

/-- The records of the graph and the layout agree with the instructions. -/
structure Filed (f : Func) : Prop where
  flow : f.flow.Recorded
  arranged : f.Arranged

variable {f : Func}

theorem new_filed (name : String) (sig : Signature) : (new name sig).Filed :=
  ⟨(new_coherent name sig).flow.recorded, (new_coherent name sig).arranged⟩

theorem Filed.of_flow (h : f.Filed) {g : DataFlow} (hg : g.Recorded)
    (hi : ∀ i, (∃ inst, g.inst? i = some inst) ↔ ∃ inst, f.flow.inst? i = some inst) :
    ({ f with flow := g } : Func).Filed :=
  ⟨hg, h.arranged.layout, fun i => (h.arranged.placed i).trans (hi i).symm, h.arranged.known⟩

end Func

namespace Builder

variable {b b' : Builder} {Q : Inst → Ty → DataFlow → Prop}

theorem insert_filed (h : b.func.Filed) {inst : Inst} {ty : Ty} {i : InstId}
    (hi : b.insert inst ty = .ok (i, b')) :
    b'.func.Filed := by
  obtain ⟨⟨i', g⟩, hadd, hi⟩ := bind_eq_ok.1 hi
  obtain ⟨⟨pos, l⟩, hplace, hi⟩ := bind_eq_ok.1 hi
  cases hi
  obtain ⟨hg, v?, hgrown⟩ := h.flow.addInst hadd
  obtain ⟨hproper, hblocks, hmem, -⟩ := InsertPos.place_gains h.arranged.layout hplace
  refine ⟨hg, hproper, fun j => ?_, fun c => ?_⟩
  · show j ∈ l.allInsts ↔ ∃ jnst, g.inst? j = some jnst
    rw [hmem, hgrown.inst?, h.arranged.placed]
    by_cases hj : j = i
    · simp [hj]
    · simp [hj]
  · show c ∈ l.blocks ↔ _
    rw [hblocks]
    exact h.arranged.known c

theorem removeInst_filed (h : b.func.Filed) {i : InstId} (hr : b.removeInst i = .ok b') :
    b'.func.Filed := by
  obtain ⟨pos, -, hr⟩ := bind_eq_ok.1 hr
  obtain ⟨l, hl, hr⟩ := bind_eq_ok.1 hr
  obtain ⟨g, hg, hr⟩ := bind_eq_ok.1 hr
  cases hr
  obtain ⟨hrecorded, hshrunk⟩ := h.flow.removeInst hg
  obtain ⟨hproper, hblocks, -, hat⟩ := Layout.removeInst_of_ok h.arranged.layout hl
  refine ⟨hrecorded, hproper, fun j => ?_, fun c => ?_⟩
  · show j ∈ l.allInsts ↔ ∃ jnst, g.inst? j = some jnst
    rw [hproper.mem_allInsts, hat, hshrunk.inst?]
    by_cases hj : i = j
    · simp [hj]
    · rw [if_neg hj, if_neg (Ne.symm hj), ← h.arranged.layout.mem_allInsts, h.arranged.placed]
  · show c ∈ l.blocks ↔ _
    rw [hblocks]
    exact h.arranged.known c

theorem moveToEnd_filed (h : b.func.Filed) {i : InstId} {c : BlockId}
    (hm : b.moveToEnd i c = .ok b') :
    b'.func.Filed := by
  obtain ⟨pos, -, hm⟩ := bind_eq_ok.1 hm
  obtain ⟨l, hl, hm⟩ := bind_eq_ok.1 hm
  obtain ⟨l', hl', hm⟩ := bind_eq_ok.1 hm
  cases hm
  obtain ⟨hproper, hsame, hmem, -⟩ := Layout.moveInst_of_ok h.arranged.layout hl hl'
  refine ⟨h.flow, hproper, fun j => (hmem j).trans (h.arranged.placed j), fun d => ?_⟩
  show d ∈ l'.blocks ↔ _
  rw [hsame]
  exact h.arranged.known d

theorem Step.filed (hs : Step Q b b') (h : b.func.Filed) : b'.func.Filed := by
  cases hs with
  | edit change hc hg =>
    exact h.of_flow (DataFlow.Change.apply_recorded h.flow hc hg)
      (DataFlow.Change.apply_framed hc hg).exists_inst
  | declare name sig =>
    refine h.of_flow (h.flow.addImport name sig) fun i => ?_
    unfold DataFlow.addImport
    split <;> rfl
  | goTo => exact h
  | insert _ _ hi => exact insert_filed h hi
  | remove hr => exact removeInst_filed h hr
  | block hb =>
    obtain ⟨l, hl, hb⟩ := bind_eq_ok.1 hb
    cases hb
    exact ⟨h.flow, h.arranged.widen _ (Layout.appendBlock_widened hl)⟩
  | blockAfter hb =>
    obtain ⟨l, hl, hb⟩ := bind_eq_ok.1 hb
    cases hb
    exact ⟨h.flow, h.arranged.widen _ (Layout.insertBlockAfter_widened hl)⟩
  | nameBlock hn =>
    obtain ⟨table, ht, hn⟩ := bind_eq_ok.1 hn
    cases hn
    exact ⟨h.flow, h.arranged.nameBlock ht⟩
  | dropBlock _ _ hg hl ht =>
    refine ⟨(h.flow.forgetBlock hg).1.touch, h.arranged.dropBlock (fun i => ?_) hl ht⟩
    exact DataFlow.inst?_of_insts (DataFlow.insts_of_forgetBlock hg) i

theorem Steps.filed (hs : Steps Q b b') (h : b.func.Filed) : b'.func.Filed := by
  induction hs with
  | refl => exact h
  | tail _ hstep ih => exact hstep.filed ih

theorem Action.filed {a : Action} (h : b.func.Filed) (ha : a.Offered b) (hb : a.apply b = .ok b') :
    b'.func.Filed := by
  rcases Action.parts (Q := fun _ _ _ => True) (fun _ => trivial) ha hb with
    hsteps | ⟨pos, rfl⟩ | ⟨inst, ty, rfl⟩ | ⟨i, c, rfl⟩
  · exact hsteps.filed h
  · cases hb
    exact h
  · obtain ⟨i, hi⟩ := snd_eq_ok.1 hb
    exact insert_filed h hi
  · exact moveToEnd_filed h hb

theorem History.filed (hh : History Action.Offered b b') (h : b.func.Filed) : b'.func.Filed := by
  induction hh with
  | refl => exact h
  | tail _ hlast ih =>
    obtain ⟨a, ha, hb⟩ := hlast
    exact Action.filed ih ha hb

end Builder

theorem Edges.preds_ascending {f : Func} {e : Edges} {c : BlockId} {ps : List BlockId}
    (h : ofFunc f = .ok e) (hp : e.preds c = .ok ps) :
    ps.Pairwise fun p q => p.index < q.index := by
  obtain ⟨succs, -, h⟩ := bind_eq_ok.1 h
  cases h
  have hsource := Dict.mem_of_get? (ofOption_eq_ok.1 hp)
  obtain ⟨d, -, hd⟩ := List.mem_map.1 hsource
  cases hd
  exact KeySet.ascending _

namespace Func

variable {f : Func}

theorem predecessors_ascending (f : Func) (c : BlockId) :
    (f.predecessors c).Pairwise fun p q => p.index < q.index :=
  KeySet.ascending _

theorem Filed.mem_predecessors (h : f.Filed) (he : f.EndsLast) {p c : BlockId} :
    p ∈ f.predecessors c ↔ f.Leads p c :=
  mem_predecessors_of h.arranged.layout h.flow.blockUsers_iff he

theorem Filed.preds_eq (h : f.Filed) (he : f.EndsLast) {e : Edges} (hedges : Edges.ofFunc f = .ok e)
    (hsnap : Edges.Snapshot f e) {c : BlockId} (hc : c ∈ f.blocks) :
    e.preds c = .ok (f.predecessors c) := by
  obtain ⟨ps, hps, hmem⟩ := hsnap.preds c hc
  have hsame : ps = f.predecessors c := by
    have hascending := Edges.preds_ascending hedges hps
    exact KeySet.toList_ext (s := ⟨ps, hascending⟩) (t := ⟨_, f.predecessors_ascending c⟩) fun p =>
      (hmem p).trans (h.mem_predecessors he).symm
  rw [hps, hsame]

end Func

namespace Builder

/-- Whatever was done to a function, the two ways to find predecessors agree once nothing stands
behind a terminator. -/
theorem history_predecessors {name : String} {sig : Signature} {b : Builder}
    (h : History Action.Offered { func := .new name sig } b) (he : b.func.EndsLast) :
    ∃ e, Edges.ofFunc b.func = .ok e ∧ ∀ c ∈ b.func.blocks,
      e.preds c = .ok (b.func.predecessors c) ∧
      (b.func.predecessors c).Pairwise (fun p q => p.index < q.index) ∧
      (∃ succs, b.func.successors c = .ok succs ∧ e.succs c = .ok succs) ∧
      ∀ p, p ∈ b.func.predecessors c ↔ ∃ succs, b.func.successors p = .ok succs ∧ c ∈ succs := by
  have hfiled := History.filed h (Func.new_filed name sig)
  obtain ⟨e, hedges, hsnap⟩ := Edges.ofFunc_ok b.func
  refine ⟨e, hedges, fun c hc => ⟨hfiled.preds_eq he hedges hsnap hc,
    b.func.predecessors_ascending c, ?_, fun p =>
    hfiled.mem_predecessors he⟩⟩
  obtain ⟨succs, hsuccs⟩ := Func.successors_ok hc
  exact ⟨succs, hsuccs, (hsnap.succs c hc).trans hsuccs⟩

/-- A phi that names a block twice and one that is led elsewhere, a terminator that moved, a block
that is gone, and branches to a block that is no longer asked for. -/
def rerouted : List Action :=
  [.block (some "entry"), .block (some "left"), .block (some "right"), .block (some "join"),
    .block (some "gone"), .goTo (.append ⟨0⟩), .build none (.brCond ⟨0⟩ ⟨1⟩ ⟨2⟩),
    .goTo (.append ⟨1⟩), .build none (.br ⟨4⟩), .goTo (.append ⟨2⟩),
    .build none (.brCond ⟨0⟩ ⟨3⟩ ⟨3⟩), .goTo (.append ⟨4⟩), .build none (.br ⟨0⟩),
    .goTo (.append ⟨3⟩), .insert (.phi .phi [⟨0⟩] [⟨2⟩, ⟨2⟩, ⟨1⟩]) (.int 1), .build none .ret,
    .edit (.replaceBlockWithin ⟨4⟩ ⟨3⟩ ⟨1⟩), .edit (.replaceBlockUse ⟨1⟩ ⟨2⟩), .remove ⟨3⟩,
    .removeBlock ⟨4⟩]

theorem rerouted_predecessors :
    ∃ b, Action.run Action.Offered { func := .new "f" ⟨[.int 1], none⟩ } rerouted = some b ∧
      b.func.EndsLast ∧ b.func.predecessors ⟨3⟩ = [⟨1⟩, ⟨2⟩] ∧ ∃ e, Edges.ofFunc b.func = .ok e ∧
      e.preds ⟨3⟩ = .ok [⟨1⟩, ⟨2⟩] := by
  have hrun : (Action.run Action.Offered { func := .new "f" ⟨[.int 1], none⟩ }
      rerouted).any (fun b =>
      b.func.layout.rows.all (fun r => r.insts.all fun t =>
        !b.func.flow.isTerminator t || decide (r.insts.getLast? = some t)) &&
      ⟨3⟩ ∈ b.func.blocks && b.func.predecessors ⟨3⟩ = [⟨1⟩, ⟨2⟩]) = true := by decide +kernel
  obtain ⟨b, hb, hcheck⟩ := (Option.any_eq_true _ _).1 hrun
  simp only [Bool.and_eq_true, decide_eq_true_eq] at hcheck
  obtain ⟨⟨hends, hplaced⟩, hpreds⟩ := hcheck
  have he : b.func.EndsLast := Func.endsLast_of_all hends
  obtain ⟨e, hedges, hall⟩ := history_predecessors (Action.run_history hb) he
  exact ⟨b, hb, he, hpreds, e, hedges, hpreds ▸ (hall ⟨3⟩ hplaced).1⟩

end Builder

end MiddleEnd
