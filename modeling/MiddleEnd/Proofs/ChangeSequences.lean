import MiddleEnd.Proofs.Building
import MiddleEnd.Proofs.EdgeEdits

/-!
# Any changes, in any order

A change of the data flow that goes through has found everything it refers to, and then it leaves
the use lists exact. So they are exact whatever was done to a graph since it held parameters only.
-/

namespace MiddleEnd.DataFlow

variable {g g' : DataFlow}

theorem addInst_of_ok (hg : g.Exact) {inst : Inst} {ty : Ty} {i : InstId}
    (hphi : ∀ op args preds, inst = .phi op args preds → args.length = preds.length)
    (h : g.addInst inst ty = .ok (i, g')) : g'.Exact := by
  obtain ⟨j, g'', v?, hadd, hexact, -⟩ := addInst_ok hg ty (args_of_addInst h) hphi
  rw [h] at hadd
  cases hadd
  exact hexact

theorem free_of_removeInst (hg : g.Exact) {i : InstId} (h : g.removeInst i = .ok g') :
    (∃ inst, g.inst? i = some inst) ∧
      ∀ v, g.result? i = some v → ∀ j jnst, g.inst? j = some jnst → v ∉ jnst.args := by
  rcases removeInst_parts h with ⟨hr, hdetach⟩ | ⟨v, e, values, hr, hfree, -, -⟩
  · obtain ⟨inst, hd⟩ := detach_spec hdetach
    refine ⟨⟨inst, hd.there⟩, fun v hv => ?_⟩
    cases hr.symm.trans hv
  · obtain ⟨ty, ho, -⟩ := hg.result_origin hr
    obtain ⟨used, hused, hiff⟩ := hg.hasUsers_ok ho
    refine ⟨hasInst_of_result hr, fun w hw j jnst hj harg => ?_⟩
    cases hr.symm.trans hw
    -- A result that is used stops the removal.
    rw [hiff.2 ⟨j, jnst, hj, harg⟩, hfree] at hused
    cases hused

theorem removeInst_of_ok (hg : g.Exact) {i : InstId} (h : g.removeInst i = .ok g') : g'.Exact := by
  obtain ⟨⟨inst, hi⟩, hfree⟩ := free_of_removeInst hg h
  obtain ⟨g'', hrun, hexact, -⟩ := removeInst_ok hg hi hfree
  rw [h] at hrun
  cases hrun
  exact hexact

theorem replaceWithin_of_ok (hg : g.Exact) {old new : ValueId} {i : InstId} {n : Nat}
    (h : g.replaceWithin old new i = .ok (n, g')) : g'.Exact := by
  have hrun := h
  unfold replaceWithin at hrun
  by_cases hne : old = new
  · rw [if_pos hne] at hrun
    cases hrun
    exact hg
  rw [if_neg hne] at hrun
  obtain ⟨inst, hinst, hrun⟩ := bind_eq_ok.1 hrun
  by_cases hcount : inst.args.count old = 0
  · simp only [if_pos hcount] at hrun
    cases hrun
    exact hg
  simp only [if_neg hcount] at hrun
  obtain ⟨g₁, hlink, -⟩ := bind_eq_ok.1 hrun
  obtain ⟨o, ho⟩ := linkUse_of_ok hlink
  rw [(unlinkUse_spec _ old i).1.origins] at ho
  have hmem : old ∈ inst.args :=
    Classical.byContradiction fun hn => hcount (List.count_eq_zero.2 hn)
  obtain ⟨m, g'', hdone, hexact, -⟩ := replaceWithin_ok hg hne (inst_eq_ok.1 hinst) hmem ho
  rw [h] at hdone
  cases hdone
  exact hexact

theorem replaceUse_of_ok (hg : g.Exact) {old new : ValueId} {n : Nat}
    (h : g.replaceUse old new = .ok (n, g')) :
    g'.Exact := replaceUse_induct h hg fun hc hstep => replaceWithin_of_ok hc hstep

theorem setArg_of_ok (hg : g.Exact) {i : InstId} {n : Nat} {v : ValueId}
    (h : g.setArg i n v = .ok g') : g'.Exact := by
  have hrun := h
  unfold setArg at hrun
  obtain ⟨inst, hinst, hrun⟩ := bind_eq_ok.1 hrun
  obtain ⟨old, hold, hrun⟩ := bind_eq_ok.1 hrun
  obtain ⟨o, ho⟩ := linkUse_of_ok hrun
  have hv : g.origin? v = some o := by
    split at ho
    · exact ho
    · rw [(unlinkUse_spec _ old i).1.origins] at ho
      exact ho
  have hn : n < inst.args.length := (List.getElem?_eq_some_iff.1 (ofOption_eq_ok.1 hold)).1
  obtain ⟨g'', hdone, hexact, -⟩ := setArg_ok hg (inst_eq_ok.1 hinst) hn hv
  rw [h] at hdone
  cases hdone
  exact hexact

theorem replaceBlockWithin_of_ok (hg : g.Exact) {old new : BlockId} {i : InstId} {n : Nat}
    (h : g.replaceBlockWithin old new i = .ok (n, g')) : g'.Exact := by
  have hrun := h
  unfold replaceBlockWithin at hrun
  by_cases hne : old = new
  · rw [if_pos hne] at hrun
    cases hrun
    exact hg
  rw [if_neg hne] at hrun
  obtain ⟨inst, hinst, hrun⟩ := bind_eq_ok.1 hrun
  by_cases hcount : inst.blocks.count old = 0
  · simp only [if_pos hcount] at hrun
    cases hrun
    exact hg
  have hmem : old ∈ inst.blocks :=
    Classical.byContradiction fun hn => hcount (List.count_eq_zero.2 hn)
  obtain ⟨m, g'', hdone, hexact, -⟩ := replaceBlockWithin_ok hg hne (inst_eq_ok.1 hinst) hmem
  rw [h] at hdone
  cases hdone
  exact hexact

theorem replaceBlockUse_of_ok (hg : g.Exact) {old new : BlockId} {n : Nat}
    (h : g.replaceBlockUse old new = .ok (n, g')) : g'.Exact :=
  replaceBlockUse_induct h hg fun hc hstep => replaceBlockWithin_of_ok hc hstep

theorem setIncoming_of_ok (hg : g.Exact) {i : InstId} {b : BlockId} {v : ValueId}
    (h : g.setIncoming i b v = .ok g') : g'.Exact := by
  rcases setIncoming_cases h with ⟨n, hset⟩ | hadd
  · exact setArg_of_ok hg hset
  · exact (addIncoming_of_ok hg hadd).1

theorem removeIncoming_of_ok (hg : g.Exact) {i : InstId} {b : BlockId} {n : Nat}
    (h : g.removeIncoming i b = .ok (n, g')) : g'.Exact := by
  have hrun := h
  obtain ⟨⟨op, args, preds⟩, hlists, -⟩ := bind_eq_ok.1 hrun
  obtain ⟨m, g'', hdone, hexact, -⟩ :=
    removeIncoming_ok hg b (phiLists_of_ok hlists) ⟨op, args, preds, rfl⟩
  rw [h] at hdone
  cases hdone
  exact hexact

theorem Exact.clearName (hg : g.Exact) (v : ValueId) : (g.clearName v).2.Exact := by
  obtain ⟨hi, hv, hp, -, hb, -⟩ := clearName_spec g v
  exact hg.congr hi hv hp hb

/-- An operation on a data flow graph with its arguments. -/
inductive Change where
  | addInst (inst : Inst) (ty : Ty)
  | removeInst (i : InstId)
  | const (w : Word)
  | undef (ty : Ty)
  | addReg (ty : Ty)
  | replaceUse (old new : ValueId)
  | replaceWithin (old new : ValueId) (i : InstId)
  | setArg (i : InstId) (n : Nat) (v : ValueId)
  | replaceBlockUse (old new : BlockId)
  | replaceBlockWithin (old new : BlockId) (i : InstId)
  | addIncoming (i : InstId) (v : ValueId) (b : BlockId)
  | setIncoming (i : InstId) (b : BlockId) (v : ValueId)
  | removeIncoming (i : InstId) (b : BlockId)
  | setName (v : ValueId) (name : String)
  | clearName (v : ValueId)

namespace Change

/-- The graph after the operation, whatever else it yields. -/
def apply (g : DataFlow) : Change → Checked DataFlow
  | addInst inst ty => return (← g.addInst inst ty).2
  | removeInst i => g.removeInst i
  | const w => return (g.const w).2
  | undef ty => return (g.undef ty).2
  | addReg ty => return (g.addReg ty).2
  | replaceUse old new => return (← g.replaceUse old new).2
  | replaceWithin old new i => return (← g.replaceWithin old new i).2
  | setArg i n v => g.setArg i n v
  | replaceBlockUse old new => return (← g.replaceBlockUse old new).2
  | replaceBlockWithin old new i => return (← g.replaceBlockWithin old new i).2
  | addIncoming i v b => g.addIncoming i v b
  | setIncoming i b v => g.setIncoming i b v
  | removeIncoming i b => return (← g.removeIncoming i b).2
  | setName v name => return g.setName v name
  | clearName v => return (g.clearName v).2

/-- A phi is added with as many values as blocks. -/
def fits : Change → Bool
  | addInst (.phi _ args preds) _ => args.length == preds.length
  | _ => true

theorem apply_exact (hg : g.Exact) {c : Change} (hc : c.fits = true) (h : c.apply g = .ok g') :
    g'.Exact := by
  have hsnd : ∀ {α : Type} {x : Checked (α × DataFlow)}, (do return (← x).2) = Except.ok g' →
      ∃ a, x = .ok (a, g') := by
    intro α x hx
    obtain ⟨⟨a, d⟩, hd, hx⟩ := bind_eq_ok.1 hx
    cases hx
    exact ⟨a, hd⟩
  have hshared : ∀ {o : ValueDef}, o.isConst = true ∨ o.isUndef = true → (g.shared o).2.Exact := by
    intro o ho
    obtain ⟨v, d, hd, -, hexact, -⟩ := shared_ok hg ho
    rw [hd]
    exact hexact
  cases c with
  | addInst inst ty =>
    obtain ⟨i, h⟩ := hsnd h
    refine addInst_of_ok hg ?_ h
    rintro op args preds rfl
    simpa [fits] using hc
  | removeInst i => exact removeInst_of_ok hg h
  | const w =>
    cases h
    exact hshared (.inl rfl)
  | undef ty =>
    cases h
    exact hshared (.inr rfl)
  | addReg ty =>
    cases h
    refine hg.addValue (fun _ _ he => by cases he) fun ho => ?_
    rcases ho with ho | ho <;> cases ho
  | replaceUse old new =>
    obtain ⟨n, h⟩ := hsnd h
    exact replaceUse_of_ok hg h
  | replaceWithin old new i =>
    obtain ⟨n, h⟩ := hsnd h
    exact replaceWithin_of_ok hg h
  | setArg i n v => exact setArg_of_ok hg h
  | replaceBlockUse old new =>
    obtain ⟨n, h⟩ := hsnd h
    exact replaceBlockUse_of_ok hg h
  | replaceBlockWithin old new i =>
    obtain ⟨n, h⟩ := hsnd h
    exact replaceBlockWithin_of_ok hg h
  | addIncoming i v b => exact (addIncoming_of_ok hg h).1
  | setIncoming i b v => exact setIncoming_of_ok hg h
  | removeIncoming i b =>
    obtain ⟨n, h⟩ := hsnd h
    exact removeIncoming_of_ok hg h
  | setName v name =>
    cases h
    exact (hg.clearName v).congr rfl rfl rfl rfl
  | clearName v =>
    cases h
    exact hg.clearName v

theorem foldlM_exact (hg : g.Exact) {changes : List Change} (hc : changes.all fits = true)
    (h : changes.foldlM apply g = .ok g') : g'.Exact := by
  refine foldlM_ok_induct (fun _ (d : DataFlow) => d.Exact) h hg ?_
  rintro pre c post d d' rfl hd hstep
  exact apply_exact hd (List.all_eq_true.1 hc c (List.mem_append_right _ List.mem_cons_self)) hstep

end Change

/-- After any changes that went through, users are exactly the instructions that refer to a value or
a block, operands are there, phis have a value for each block, and no constant or `undef` stands
twice. -/
theorem uses_exact_after {start : DataFlow} {changes : List Change}
    (hs : start = {} ∨ ∃ sig, start = ofSignature sig) (hc : changes.all Change.fits = true)
    (h : changes.foldlM Change.apply start = .ok g) :
    (∀ v, g.hasValue v = true → ∃ us, g.users v = .ok us ∧
      ∀ i, i ∈ us ↔ ∃ inst, g.inst? i = some inst ∧ v ∈ inst.args) ∧
    (∀ b i, i ∈ g.usersOfBlock b ↔ ∃ inst, g.inst? i = some inst ∧ b ∈ inst.blocks) ∧
    (∀ i inst, g.inst? i = some inst → ∀ v ∈ inst.args, g.hasValue v = true) ∧
    (∀ i op args preds, g.inst? i = some (.phi op args preds) → args.length = preds.length) ∧
    (∀ v w k, g.origin? v = some (.const k) → g.origin? w = some (.const k) → v = w) ∧
    (∀ v w ty, g.origin? v = some (.undef ty) → g.origin? w = some (.undef ty) → v = w) := by
  have hstart : start.Exact := by
    rcases hs with rfl | ⟨sig, rfl⟩
    · exact bare_empty.exact
    · exact (bare_ofSignature sig).exact
  have hg := Change.foldlM_exact hstart hc h
  have hthere : ∀ {v}, g.hasValue v = true ↔ ∃ o, g.origin? v = some o := by
    intro v
    rw [hasValue, Table.contains_iff]
    simp only [origin?_eq_some]
    constructor
    · rintro ⟨e, he⟩
      exact ⟨e.origin, e, he, rfl⟩
    · rintro ⟨_, e, he, -⟩
      exact ⟨e, he⟩
  refine ⟨fun v hv => ?_, hg.blockUsers_iff, fun i inst hi v hv => hthere.2 (hg.operand hi hv),
    fun i op args preds hi => hg.phi_lengths hi,
    fun v w k hv hw => hg.shared_unique hv hw (.inl rfl),
    fun v w ty hv hw => hg.shared_unique hv hw (.inr rfl)⟩
  obtain ⟨o, ho⟩ := hthere.1 hv
  exact hg.users_ok ho

/-- Operands that repeat, a phi with two edges from one block, and what becomes of them. -/
def reworked : List Change :=
  [.const (.int32 1), .const (.int32 2), .const (.int32 1),
    .undef (.int 32), .addReg (.int 32), .addInst (.binary .add ⟨0⟩ ⟨0⟩) (.int 32),
    .addInst (.phi .phi [⟨4⟩, ⟨0⟩, ⟨4⟩] [⟨1⟩, ⟨2⟩, ⟨1⟩]) (.int 32),
    .addInst (.branch .brCond ⟨5⟩ ⟨1⟩ ⟨2⟩) .void, .addInst (.unary .retValue ⟨5⟩) .void,
    .replaceUse ⟨0⟩ ⟨1⟩, .setArg ⟨0⟩ 0 ⟨0⟩, .replaceWithin ⟨0⟩ ⟨3⟩ ⟨0⟩, .replaceBlockUse ⟨1⟩ ⟨3⟩,
    .replaceBlockWithin ⟨3⟩ ⟨1⟩ ⟨2⟩, .addIncoming ⟨1⟩ ⟨1⟩ ⟨4⟩, .setIncoming ⟨1⟩ ⟨4⟩ ⟨2⟩,
    .setName ⟨1⟩ "two", .clearName ⟨1⟩, .removeIncoming ⟨1⟩ ⟨3⟩, .removeInst ⟨3⟩]

theorem reworked_uses_exact :
    ∃ g us, reworked.foldlM Change.apply {} = .ok g ∧ g.users ⟨1⟩ = .ok us ∧
      us.toList = [⟨0⟩, ⟨1⟩] ∧ ∀ i, i ∈ us ↔ ∃ inst, g.inst? i = some inst ∧ ⟨1⟩ ∈ inst.args := by
  obtain ⟨g, hg, hp⟩ := exists_of_any (x := reworked.foldlM Change.apply {})
    (p := fun g => g.hasValue ⟨1⟩ && (g.users ⟨1⟩).toOption.any (·.toList = [⟨0⟩, ⟨1⟩]))
    (by decide +kernel)
  rw [Bool.and_eq_true] at hp
  obtain ⟨us, hus, hlist⟩ := exists_of_any hp.2
  obtain ⟨us', hus', hmem⟩ := (uses_exact_after (.inl rfl) (by decide) hg).1 ⟨1⟩ hp.1
  rw [hus] at hus'
  cases hus'
  exact ⟨g, us, hg, hus, of_decide_eq_true hlist, hmem⟩

end MiddleEnd.DataFlow
