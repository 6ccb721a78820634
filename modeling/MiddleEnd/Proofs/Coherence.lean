import MiddleEnd.Func.Builder
import MiddleEnd.Proofs.Instructions
import MiddleEnd.Proofs.Placement

/-!
# Coherence

The parts of a function fit together: users are recorded exactly, every instruction is placed once
and every block of the table is placed. A builder starts from such a function and leaves such a
function behind, whatever it inserts, rewires or removes.
-/

namespace MiddleEnd

theorem InsertPos.release_ok {l : Layout} (h : l.Proper) {i : InstId} (hi : i ∈ l.allInsts)
    (pos : InsertPos) :
    ∃ pos', pos.release i l = .ok pos' := by
  obtain ⟨b, xs, hb, hx⟩ := (Layout.mem_allInsts_iff h.blocks_nodup).1 hi
  have hat := Layout.blockOf_ok h hb hx
  cases pos with
  | after other =>
    unfold release
    by_cases ho : other = i
    · simp only [if_pos ho, Layout.prevInst?, hat, ok_bind, hb]
      cases preceding i xs with
      | some prev => exact ⟨_, rfl⟩
      | none => exact ⟨_, rfl⟩
    · exact ⟨_, if_neg ho⟩
  | before other =>
    unfold release
    by_cases ho : other = i
    · simp only [if_pos ho, Layout.nextInst?, hat, ok_bind, hb]
      cases following i xs with
      | some next => exact ⟨_, rfl⟩
      | none => exact ⟨_, rfl⟩
    · exact ⟨_, if_neg ho⟩
  | _ => exact ⟨_, rfl⟩

namespace Func

structure Coherent (f : Func) : Prop where
  flow : f.flow.Exact
  layout : f.layout.Proper
  placed : ∀ i, i ∈ f.layout.allInsts ↔ ∃ inst, f.flow.inst? i = some inst
  known : ∀ b, b ∈ f.layout.blocks ↔ f.hasBlock b = true

/-- The layout holds the instructions and the blocks of the tables, each once. -/
structure Arranged (f : Func) : Prop where
  layout : f.layout.Proper
  placed : ∀ i, i ∈ f.layout.allInsts ↔ ∃ inst, f.flow.inst? i = some inst
  known : ∀ b, b ∈ f.layout.blocks ↔ f.hasBlock b = true

theorem Coherent.arranged {f : Func} (h : f.Coherent) : f.Arranged := ⟨h.layout, h.placed, h.known⟩

/-- The second function has the name, the signature and the blocks of the first one. -/
structure Alike (f f' : Func) : Prop where
  name : f'.name = f.name
  sig : f'.sig = f.sig
  blockTable : f'.blockTable = f.blockTable
  blocks : f'.layout.blocks = f.layout.blocks

theorem Alike.refl (f : Func) : Alike f f := ⟨rfl, rfl, rfl, rfl⟩

theorem Alike.trans {f f' f'' : Func} (h : Alike f f') (h' : Alike f' f'') : Alike f f'' :=
  ⟨h'.name.trans h.name, h'.sig.trans h.sig, h'.blockTable.trans h.blockTable,
    h'.blocks.trans h.blocks⟩

theorem entry_eq_ok {f : Func} {b : BlockId} : f.entry = .ok b ↔ f.blocks.head? = some b :=
  ofOption_eq_ok

theorem isEmpty_of_entry {f : Func} {b : BlockId} (h : f.entry = .ok b) : f.isEmpty = false := by
  unfold Func.entry at h
  rw [ofOption_eq_ok] at h
  rw [isEmpty, h]
  rfl

theorem Alike.starts {f f' : Func} (h : Alike f f') {entry : BlockId} (he : f.entry = .ok entry) :
    f'.entry = .ok entry := by
  rw [entry_eq_ok] at he ⊢
  rw [show f'.blocks = f.blocks from h.blocks]
  exact he

theorem Coherent.inst_of_mem {f : Func} (h : f.Coherent) {b : BlockId}
    {xs : List InstId} {i : InstId} (hb : f.insts b = .ok xs) (hi : i ∈ xs) :
    ∃ inst, f.flow.inst? i = some inst :=
  (h.placed i).1 ((Layout.mem_allInsts_iff h.layout.blocks_nodup).2 ⟨b, xs, hb, hi⟩)

theorem Coherent.home {f : Func} (h : f.Coherent) {i : InstId} {inst : Inst}
    (hi : f.flow.inst? i = some inst) :
    ∃ b xs, f.insts b = .ok xs ∧ i ∈ xs :=
  (Layout.mem_allInsts_iff h.layout.blocks_nodup).1 ((h.placed i).2 ⟨inst, hi⟩)

theorem Coherent.blockOf?_eq_some {f : Func} (h : f.Coherent) {i : InstId} {b : BlockId} :
    f.layout.blockOf? i = some b ↔ ∃ xs, f.insts b = .ok xs ∧ i ∈ xs :=
  h.layout.blockOf?_eq_some

theorem instText_of_known {f : Func} {i : InstId} {inst : Inst} (hi : f.flow.inst? i = some inst)
    (hcallee : ∀ {callee}, inst.callee? = some callee →
      ∃ target, f.flow.imports.get? callee = some target)
    (hresult : ∀ {v}, f.flow.result? i = some v → ∃ o, f.flow.origin? v = some o) :
    ∃ text, f.instText i = .ok text := by
  obtain ⟨operands, hoperands⟩ : ∃ text, f.operandText inst = .ok text := by
    cases inst with
    | call op callee args =>
      obtain ⟨target, ht⟩ := hcallee rfl
      exact ⟨_, by rw [operandText, Table.get, ht, ofOption_some, ok_bind]⟩
    | _ => exact ⟨_, rfl⟩
  unfold instText
  rw [DataFlow.inst_eq_ok.2 hi, ok_bind]
  cases hr : f.flow.result? i with
  | none =>
    simp only [pure_eq_ok, ok_bind, hoperands]
    exact ⟨_, rfl⟩
  | some v =>
    obtain ⟨o, ho⟩ := hresult hr
    simp only [DataFlow.ty_of_origin ho, pure_eq_ok, ok_bind, hoperands]
    exact ⟨_, rfl⟩

theorem Coherent.rewire {f : Func} (h : f.Coherent) {g : DataFlow} {ρ : InstId → Inst → Inst}
    (hg : g.Exact) (hr : DataFlow.Rewired f.flow g ρ) : ({ f with flow := g } : Func).Coherent where
  flow := hg
  layout := h.layout
  placed i := by
    rw [h.placed]
    show _ ↔ ∃ inst, g.inst? i = some inst
    rw [hr.inst?]
    cases f.flow.inst? i <;> simp
  known := h.known

end Func

namespace Builder

@[simp]
theorem flow_withFlow (b : Builder) (g : DataFlow) : (b.withFlow g).flow = g := rfl

@[simp]
theorem func_withFlow (b : Builder) (g : DataFlow) :
    (b.withFlow g).func = { b.func with flow := g } := rfl

theorem replaceUse_ok {b : Builder} (h : b.func.Coherent) {old new : ValueId} {o o' : ValueDef}
    (hold : b.flow.origin? old = some o) (hnew : b.flow.origin? new = some o') :
    ∃ g, b.replaceUse old new = .ok (b.withFlow g) ∧ (b.withFlow g).func.Coherent ∧
      DataFlow.Rewired b.flow g fun _ inst => inst.mapArgs (DataFlow.swap old new) := by
  obtain ⟨n, g, hg, hE, hR⟩ := DataFlow.replaceUse_ok h.flow hold hnew
  refine ⟨g, ?_, h.rewire hE hR, hR⟩
  unfold replaceUse flow
  rw [hg, ok_bind]

theorem removeInst_ok {b : Builder} (h : b.func.Coherent) {i : InstId} {inst : Inst}
    (hi : b.flow.inst? i = some inst)
    (hfree : ∀ v, b.flow.result? i = some v → ∀ j jnst, b.flow.inst? j = some jnst →
      v ∉ jnst.args) :
    ∃ b', b.removeInst i = .ok b' ∧ b'.func.Coherent ∧ DataFlow.Shrunk b.flow b'.flow i ∧
      Func.Alike b.func b'.func ∧ ∀ c, b'.func.insts c = (b.func.insts c).map
        (·.filter (· ≠ i)) := by
  have hmem := (h.placed i).2 ⟨inst, hi⟩
  obtain ⟨pos, hpos⟩ := InsertPos.release_ok h.layout hmem b.pos
  obtain ⟨c, xs, hc, hx⟩ := (Layout.mem_allInsts_iff h.layout.blocks_nodup).1 hmem
  have hl := Layout.removeInst_ok h.layout hc hx
  obtain ⟨g, hg, hE, hS⟩ := DataFlow.removeInst_ok h.flow hi hfree
  have hinsts : ∀ d, (b.func.layout.editRow c (·.filter (· ≠ i))).insts d =
      (b.func.insts d).map (·.filter (· ≠ i)) := by
    intro d
    by_cases hd : d = c
    · subst hd
      rw [Layout.insts_editRow_self _ hc, Func.insts, hc, map_ok]
    · rw [Layout.insts_editRow_ne _ hd, Func.insts]
      cases hid : b.func.layout.insts d with
      | error e => rfl
      | ok ys =>
        have hni : i ∉ ys := fun hy => hd (h.layout.one_block hid hc hy hx)
        rw [map_ok, List.filter_eq_self.2]
        intro j hj
        have : j ≠ i := fun e => hni (e ▸ hj)
        simpa using this
  have hproper : (b.func.layout.editRow c (·.filter (· ≠ i))).Proper := by
    refine h.layout.editRow hc ((h.layout.insts_nodup hc).filter _) ?_
    intro j hj
    exact .inl (List.mem_filter.1 hj).1
  refine ⟨⟨{ b.func with flow := g, layout := b.func.layout.editRow c (·.filter (· ≠ i)) }, pos⟩,
    ?_, ⟨hE, hproper, ?_, ?_⟩, hS, ⟨rfl, rfl, rfl, Layout.blocks_editRow _ _ _⟩, hinsts⟩
  · unfold removeInst
    rw [hpos, ok_bind, hl, ok_bind]
    unfold flow
    rw [hg, ok_bind]
  · intro j
    show _ ↔ ∃ jnst, g.inst? j = some jnst
    have hfilter : j ∈ xs.filter (fun k => decide (k ≠ i)) ↔ j ∈ xs ∧ j ≠ i := by simp
    rw [Layout.mem_allInsts_editRow h.layout hc, hS.inst?, hfilter]
    by_cases hj : j = i
    · subst hj
      simp [hx]
    · rw [if_neg hj, ← h.placed j]
      constructor
      · rintro (⟨hj', -⟩ | ⟨hj', -⟩)
        · exact (Layout.mem_allInsts_iff h.layout.blocks_nodup).2 ⟨c, xs, hc, hj'⟩
        · exact hj'
      · intro hj'
        by_cases hjx : j ∈ xs
        · exact .inl ⟨hjx, hj⟩
        · exact .inr ⟨hj', hjx⟩
  · intro d
    show d ∈ (b.func.layout.editRow c _).blocks ↔ _
    rw [Layout.blocks_editRow]
    exact h.known d

end Builder

end MiddleEnd
