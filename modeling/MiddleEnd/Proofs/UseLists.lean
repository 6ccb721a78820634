import MiddleEnd.DataFlow.Edit
import MiddleEnd.Proofs.Containers

/-!
# Use lists

The users recorded beside every value and every block are exactly the instructions that refer to it.
Every edit of the data flow keeps it so. Edits that only rewire operands are described by what they
do to each instruction; results and origins of values stay as they are.
-/

namespace MiddleEnd

theorem Opcode.hasSideEffects_of_terminator {op : Opcode} (h : op.isTerminator = true) :
    op.hasSideEffects = true := by
  revert h
  cases op <;> decide

namespace Inst

@[simp]
theorem args_mapArgs (g : ValueId → ValueId) (i : Inst) : (i.mapArgs g).args = i.args.map g := by
  cases i <;> rfl

@[simp]
theorem op_mapArgs (g : ValueId → ValueId) (i : Inst) : (i.mapArgs g).op = i.op := by
  cases i <;> rfl

@[simp]
theorem blocks_mapArgs (g : ValueId → ValueId) (i : Inst) : (i.mapArgs g).blocks = i.blocks := by
  cases i <;> rfl

theorem mapArgs_eq_self {g : ValueId → ValueId} {i : Inst} (h : ∀ v ∈ i.args, g v = v) :
    i.mapArgs g = i := by
  have hl : ∀ xs : List ValueId, (∀ v ∈ xs, g v = v) → xs.map g = xs := by
    intro xs hx
    rw [List.map_congr_left hx, List.map_id']
  cases i with
  | nullary op => rfl
  | unary op x => simp only [mapArgs]; rw [h x (by simp [args])]
  | binary op x y => simp only [mapArgs]; rw [h x (by simp [args]), h y (by simp [args])]
  | phi op xs preds => simp only [mapArgs]; rw [hl xs h]
  | jump op b => rfl
  | branch op c t e => simp only [mapArgs]; rw [h c (by simp [args])]
  | call op f xs => simp only [mapArgs]; rw [hl xs h]

theorem mapArgs_mapArgs (g h : ValueId → ValueId) (i : Inst) :
    (i.mapArgs g).mapArgs h = i.mapArgs (h ∘ g) := by
  cases i <;> simp [mapArgs]

theorem arg_of_edge {i : Inst} {v : ValueId} {p : BlockId} (h : (v, p) ∈ i.edges) : v ∈ i.args := by
  cases i with
  | phi op xs preds => exact (List.of_mem_zip h).1
  | _ => cases h

theorem block_of_edge {i : Inst} {v : ValueId} {p : BlockId} (h : (v, p) ∈ i.edges) :
    p ∈ i.blocks := by
  cases i with
  | phi op xs preds => exact (List.of_mem_zip h).2
  | _ => cases h

theorem args_setArg {i : Inst} {n : Nat} (v : ValueId) (h : n < i.args.length) :
    (i.setArg n v).args = i.args.set n v := by
  cases i with
  | nullary op => simp [args] at h
  | unary op x =>
    have : n = 0 := by simpa [args] using h
    subst this
    rfl
  | binary op x y =>
    have : n < 2 := by simpa [args] using h
    match n, this with
    | 0, _ => rfl
    | 1, _ => rfl
  | phi op xs preds => rfl
  | jump op b => simp [args] at h
  | branch op c t e =>
    have : n = 0 := by simpa [args] using h
    subst this
    rfl
  | call op f xs => rfl

@[simp]
theorem op_setArg (i : Inst) (n : Nat) (v : ValueId) : (i.setArg n v).op = i.op := by
  unfold setArg
  split <;> rfl

@[simp]
theorem blocks_setArg (i : Inst) (n : Nat) (v : ValueId) : (i.setArg n v).blocks = i.blocks := by
  unfold setArg
  split <;> rfl

end Inst

namespace DataFlow

/-- Instruction `i` is recorded as a user of `v`. -/
def Uses (g : DataFlow) (v : ValueId) (i : InstId) : Prop :=
  ∃ us, g.users v = .ok us ∧ i ∈ us

structure Exact (g : DataFlow) : Prop where
  users_iff : ∀ {v o}, g.origin? v = some o →
    ∀ i, g.Uses v i ↔ ∃ inst, g.inst? i = some inst ∧ v ∈ inst.args
  operand : ∀ {i inst v}, g.inst? i = some inst → v ∈ inst.args → ∃ o, g.origin? v = some o
  blockUsers_iff : ∀ b i, i ∈ g.usersOfBlock b ↔ ∃ inst, g.inst? i = some inst ∧ b ∈ inst.blocks
  phi_lengths : ∀ {i op args preds}, g.inst? i = some (.phi op args preds) →
    args.length = preds.length
  result_origin : ∀ {i v}, g.result? i = some v →
    ∃ ty, g.origin? v = some (.result ty i) ∧ ty ≠ .void
  origin_result : ∀ {v ty i}, g.origin? v = some (.result ty i) → g.result? i = some v
  shared_unique : ∀ {v w o}, g.origin? v = some o → g.origin? w = some o →
    o.isConst = true ∨ o.isUndef = true → v = w
  param_origin : ∀ {v}, v ∈ g.params → ∃ ty p, g.origin? v = some (.param ty p)
  params_nodup : g.params.Nodup

theorem Exact.definer_eq {g : DataFlow} (h : g.Exact) {i j : InstId} {v : ValueId} {ty : Ty}
    (hi : g.result? i = some v) (hj : g.origin? v = some (.result ty j)) : j = i := by
  obtain ⟨ty', ho, -⟩ := h.result_origin hi
  rw [ho] at hj
  cases hj
  rfl

theorem Exact.congr {g g' : DataFlow} (h : g.Exact) (hi : g'.insts = g.insts)
    (hv : g'.values = g.values) (hp : g'.params = g.params) (hb : g'.blockUsers = g.blockUsers) :
    g'.Exact := by
  obtain ⟨insts, values, imports, params, names, nameCounts, blockUsers, epoch⟩ := g'
  cases hi
  cases hv
  cases hp
  cases hb
  exact ⟨h.users_iff, h.operand, h.blockUsers_iff, h.phi_lengths, h.result_origin, h.origin_result,
    h.shared_unique, h.param_origin, h.params_nodup⟩

theorem inst_eq_ok {g : DataFlow} {i : InstId} {inst : Inst} :
    g.inst i = .ok inst ↔ g.inst? i = some inst :=
  ofOption_eq_ok

theorem result_eq_ok {g : DataFlow} {i : InstId} {v : ValueId} :
    g.result i = .ok v ↔ g.result? i = some v :=
  ofOption_eq_ok

theorem origin_eq_ok {g : DataFlow} {v : ValueId} {o : ValueDef} :
    g.origin v = .ok o ↔ g.origin? v = some o :=
  ofOption_eq_ok

theorem origin?_eq_some {g : DataFlow} {v : ValueId} {o : ValueDef} :
    g.origin? v = some o ↔ ∃ e, g.values.get? v = some e ∧ e.origin = o :=
  Option.map_eq_some_iff

theorem inst?_eq_some {g : DataFlow} {i : InstId} {inst : Inst} :
    g.inst? i = some inst ↔ ∃ e, g.insts.get? i = some e ∧ e.inst = inst :=
  Option.map_eq_some_iff

theorem ty_eq_ok {g : DataFlow} {v : ValueId} {ty : Ty} :
    g.ty v = .ok ty ↔ ∃ o, g.origin? v = some o ∧ o.ty = ty := by
  unfold DataFlow.ty
  constructor
  · intro h
    obtain ⟨o, ho, h⟩ := bind_eq_ok.1 h
    exact ⟨o, origin_eq_ok.1 ho, Except.ok.inj h⟩
  · rintro ⟨o, ho, rfl⟩
    rw [origin_eq_ok.2 ho, ok_bind]

theorem ty_of_origin {g : DataFlow} {v : ValueId} {o : ValueDef} (h : g.origin? v = some o) :
    g.ty v = .ok o.ty :=
  ty_eq_ok.2 ⟨o, h, rfl⟩

theorem hasInst_iff {g : DataFlow} {i : InstId} :
    g.hasInst i = true ↔ ∃ inst, g.inst? i = some inst := by
  rw [hasInst, Table.contains_iff]
  simp only [inst?_eq_some]
  constructor
  · rintro ⟨e, he⟩; exact ⟨_, e, he, rfl⟩
  · rintro ⟨_, e, he, _⟩; exact ⟨e, he⟩

theorem hasInst_of_absent {g : DataFlow} {i : InstId} (h : g.inst? i = none) :
    g.hasInst i = false := by
  rw [← Bool.not_eq_true, hasInst_iff, h]
  simp

theorem hasInst_of_result {g : DataFlow} {i : InstId} {v : ValueId} (h : g.result? i = some v) :
    ∃ inst, g.inst? i = some inst := by
  obtain ⟨e, he, _⟩ := Option.bind_eq_some_iff.1 h
  exact ⟨e.inst, inst?_eq_some.2 ⟨e, he, rfl⟩⟩

theorem op?_eq_some {g : DataFlow} {i : InstId} {inst : Inst} (h : g.inst? i = some inst) :
    g.op? i = some inst.op := by
  rw [op?, h, Option.map_some]

theorem isPhi_of_inst {g : DataFlow} {i : InstId} {inst : Inst} (h : g.inst? i = some inst) :
    g.isPhi i = inst.op.isPhi := by
  rw [isPhi, op?_eq_some h, Option.any_some]

theorem isTerminator_of_inst {g : DataFlow} {i : InstId} {inst : Inst} (h : g.inst? i = some inst) :
    g.isTerminator i = inst.op.isTerminator := by
  rw [isTerminator, op?_eq_some h, Option.any_some]

theorem inst_of_isTerminator {g : DataFlow} {i : InstId} (h : g.isTerminator i = true) :
    ∃ inst, g.inst? i = some inst := by
  unfold isTerminator op? at h
  cases hi : g.inst? i with
  | none =>
    rw [hi] at h
    cases h
  | some inst => exact ⟨inst, rfl⟩

theorem uses_iff {g : DataFlow} {v : ValueId} {i : InstId} :
    g.Uses v i ↔ ∃ e, g.values.get? v = some e ∧ i ∈ e.users := by
  unfold Uses users
  constructor
  · rintro ⟨us, hu, hi⟩
    rw [ofOption_eq_ok, Option.map_eq_some_iff] at hu
    obtain ⟨e, he, rfl⟩ := hu
    exact ⟨e, he, hi⟩
  · rintro ⟨e, he, hi⟩
    exact ⟨e.users, by rw [he, Option.map_some, ofOption_some], hi⟩

theorem users_ok {g : DataFlow} {v : ValueId} {o : ValueDef} (h : g.origin? v = some o) :
    ∃ us, g.users v = .ok us ∧ ∀ i, i ∈ us ↔ g.Uses v i := by
  obtain ⟨e, he, _⟩ := origin?_eq_some.1 h
  have hu : g.users v = .ok e.users := by rw [users, he, Option.map_some, ofOption_some]
  refine ⟨e.users, hu, fun i => ⟨fun hi => ⟨e.users, hu, hi⟩, ?_⟩⟩
  rintro ⟨us, hus, hi⟩
  rw [hu] at hus
  cases hus
  exact hi

theorem Exact.users_ok {g : DataFlow} (h : g.Exact) {v : ValueId} {o : ValueDef}
    (hv : g.origin? v = some o) :
    ∃ us, g.users v = .ok us ∧ ∀ i, i ∈ us ↔ ∃ inst, g.inst? i = some inst ∧ v ∈ inst.args := by
  obtain ⟨us, hus, hmem⟩ := DataFlow.users_ok hv
  exact ⟨us, hus, fun i => (hmem i).trans (h.users_iff hv i)⟩

theorem Exact.hasUsers_ok {g : DataFlow} (h : g.Exact) {v : ValueId} {o : ValueDef}
    (hv : g.origin? v = some o) :
    ∃ b, g.hasUsers v = .ok b ∧ (b = true ↔ ∃ i inst, g.inst? i = some inst ∧ v ∈ inst.args) := by
  obtain ⟨us, hu, hm⟩ := h.users_ok hv
  refine ⟨!us.isEmpty, by rw [hasUsers, hu, ok_bind], ?_⟩
  rw [Bool.not_eq_true', ← Bool.not_eq_true, KeySet.isEmpty_iff]
  constructor
  · intro hn
    refine Classical.byContradiction fun hc => hn fun k hk => hc ?_
    exact ⟨k, (hm k).1 hk⟩
  · rintro ⟨i, hi⟩ hn
    exact hn i ((hm i).2 hi)

/-- The second graph is the first one with every instruction sent through a function, and perhaps
with more constants. -/
structure Rewired (g g' : DataFlow) (ρ : InstId → Inst → Inst) : Prop where
  inst? : ∀ i, g'.inst? i = (g.inst? i).map (ρ i)
  result? : ∀ i, g'.result? i = g.result? i
  origin? : ∀ {v o}, g.origin? v = some o → g'.origin? v = some o
  added : ∀ {v o}, g'.origin? v = some o → g.origin? v = some o ∨ o.isConst = true ∨
    o.isUndef = true
  params : g'.params = g.params
  imports : g'.imports = g.imports
  epoch : g'.epoch = g.epoch
  size : g'.insts.size = g.insts.size
  bound : g'.insts.bound = g.insts.bound

theorem Rewired.refl (g : DataFlow) : Rewired g g fun _ inst => inst where
  inst? i := by simp
  result? _ := rfl
  origin? h := h
  added h := .inl h
  params := rfl
  imports := rfl
  epoch := rfl
  size := rfl
  bound := rfl

theorem Rewired.trans {g g' g'' : DataFlow} {ρ ρ' : InstId → Inst → Inst} (h : Rewired g g' ρ)
    (h' : Rewired g' g'' ρ') : Rewired g g'' fun i inst => ρ' i (ρ i inst) where
  inst? i := by rw [h'.inst?, h.inst?, Option.map_map]; rfl
  result? i := by rw [h'.result?, h.result?]
  origin? hv := h'.origin? (h.origin? hv)
  added hv := by
    rcases h'.added hv with hv | hv
    · exact h.added hv
    · exact .inr hv
  params := h'.params.trans h.params
  imports := h'.imports.trans h.imports
  epoch := h'.epoch.trans h.epoch
  size := h'.size.trans h.size
  bound := h'.bound.trans h.bound

theorem Rewired.congr {g g' : DataFlow} {ρ ρ' : InstId → Inst → Inst} (h : Rewired g g' ρ)
    (e : ∀ i inst, g.inst? i = some inst → ρ i inst = ρ' i inst) : Rewired g g' ρ' where
  inst? i := by
    rw [h.inst?]
    cases hi : g.inst? i with
    | none => rfl
    | some inst => rw [Option.map_some, Option.map_some, e i inst hi]
  result? := h.result?
  origin? := h.origin?
  added := h.added
  params := h.params
  imports := h.imports
  epoch := h.epoch
  size := h.size
  bound := h.bound

theorem Rewired.origin_result_iff {g g' : DataFlow} {ρ : InstId → Inst → Inst} (h : Rewired g g' ρ)
    {v : ValueId} {ty : Ty} {i : InstId} :
    g'.origin? v = some (.result ty i) ↔ g.origin? v = some (.result ty i) := by
  refine ⟨fun hv => ?_, h.origin?⟩
  rcases h.added hv with hv | hv | hv
  · exact hv
  · simp [ValueDef.isConst] at hv
  · simp [ValueDef.isUndef] at hv

theorem Rewired.ty {g g' : DataFlow} {ρ : InstId → Inst → Inst} (h : Rewired g g' ρ)
    {v : ValueId} {ty : Ty} (hv : g.ty v = .ok ty) : g'.ty v = .ok ty := by
  obtain ⟨o, ho, rfl⟩ := ty_eq_ok.1 hv
  exact ty_of_origin (h.origin? ho)

/-- The second graph is the first one with `inst` in the place of the instruction `i` and the users
recorded accordingly. -/
structure Relinked (g g' : DataFlow) (i : InstId) (inst : Inst) : Prop where
  insts : ∀ j, g'.inst? j = if j = i then some inst else g.inst? j
  origins : ∀ v, g'.origin? v = g.origin? v
  users : ∀ {v o}, g.origin? v = some o → ∀ j, g'.Uses v j ↔
    if j = i then v ∈ inst.args else g.Uses v j
  blockUsers : ∀ b j, j ∈ g'.usersOfBlock b ↔ if j = i then b ∈ inst.blocks else j ∈
    g.usersOfBlock b

theorem Relinked.exact {g g' : DataFlow} {i : InstId} {inst : Inst} {ρ : InstId → Inst → Inst}
    (h : Relinked g g' i inst) (hr : Rewired g g' ρ) (hg : g.Exact)
    (hargs : ∀ v ∈ inst.args, ∃ o, g.origin? v = some o)
    (hphi : ∀ op args preds, inst = .phi op args preds → args.length = preds.length) :
    g'.Exact where
  users_iff := by
    intro v o hv j
    rw [h.origins] at hv
    rw [h.users hv j, h.insts j]
    by_cases hj : j = i
    · rw [if_pos hj, if_pos hj]
      exact ⟨fun hv => ⟨inst, rfl, hv⟩, fun ⟨_, hi, hv⟩ => by cases hi; exact hv⟩
    · rw [if_neg hj, if_neg hj]
      exact hg.users_iff hv j
  operand := by
    intro j jnst v hj hv
    rw [h.insts j] at hj
    have old : ∃ o, g.origin? v = some o := by
      by_cases hji : j = i
      · rw [if_pos hji] at hj
        cases hj
        exact hargs v hv
      · rw [if_neg hji] at hj
        exact hg.operand hj hv
    obtain ⟨o, ho⟩ := old
    exact ⟨o, hr.origin? ho⟩
  blockUsers_iff := by
    intro b j
    rw [h.blockUsers b j, h.insts j]
    by_cases hj : j = i
    · rw [if_pos hj, if_pos hj]
      exact ⟨fun hb => ⟨inst, rfl, hb⟩, fun ⟨_, hi, hb⟩ => by cases hi; exact hb⟩
    · rw [if_neg hj, if_neg hj]
      exact hg.blockUsers_iff b j
  phi_lengths := by
    intro j op args preds hj
    rw [h.insts j] at hj
    by_cases hji : j = i
    · rw [if_pos hji] at hj
      exact hphi op args preds (Option.some.inj hj)
    · rw [if_neg hji] at hj
      exact hg.phi_lengths hj
  result_origin := by
    intro j v hj
    rw [hr.result?] at hj
    obtain ⟨ty, ho, hn⟩ := hg.result_origin hj
    exact ⟨ty, hr.origin? ho, hn⟩
  origin_result := by
    intro v ty j hv
    rw [hr.result?]
    exact hg.origin_result (hr.origin_result_iff.1 hv)
  shared_unique := by
    intro v w o hv hw ho
    rw [h.origins] at hv hw
    exact hg.shared_unique hv hw ho
  param_origin := by
    intro v hv
    rw [hr.params] at hv
    obtain ⟨ty, p, ho⟩ := hg.param_origin hv
    exact ⟨ty, p, hr.origin? ho⟩
  params_nodup := by rw [hr.params]; exact hg.params_nodup

/-- The same graph but for users and the instruction at one place. -/
structure Patched (g g' : DataFlow) (i : InstId) (inst : Inst) : Prop where
  insts : g'.insts = g.insts.update i fun e => { e with inst }
  origins : ∀ v, g'.origin? v = g.origin? v
  params : g'.params = g.params
  imports : g'.imports = g.imports
  epoch : g'.epoch = g.epoch

theorem Patched.inst? {g g' : DataFlow} {i : InstId} {inst old : Inst} (h : Patched g g' i inst)
    (hi : g.inst? i = some old) (j : InstId) :
    g'.inst? j = if j = i then some inst else g.inst? j := by
  obtain ⟨e, he, rfl⟩ := inst?_eq_some.1 hi
  unfold DataFlow.inst?
  rw [h.insts, Table.get?_update]
  by_cases hj : j = i
  · rw [if_pos hj, if_pos hj, he]
    rfl
  · rw [if_neg hj, if_neg hj]

theorem Patched.rewired {g g' : DataFlow} {i : InstId} {inst old : Inst} (h : Patched g g' i inst)
    (hi : g.inst? i = some old) : Rewired g g' fun j jnst => if j = i then inst else jnst where
  inst? j := by
    rw [h.inst? hi j]
    by_cases hj : j = i
    · subst hj
      simp [hi]
    · simp [hj]
  result? j := by
    unfold DataFlow.result?
    rw [h.insts, Table.get?_update]
    by_cases hj : j = i
    · subst hj
      rw [if_pos rfl]
      cases g.insts.get? j <;> rfl
    · rw [if_neg hj]
  origin? hv := by rw [h.origins]; exact hv
  added hv := by rw [h.origins] at hv; exact .inl hv
  params := h.params
  imports := h.imports
  epoch := h.epoch
  size := by rw [h.insts, Table.size_update]
  bound := by rw [h.insts, Table.bound_update]

end DataFlow

end MiddleEnd
