import MiddleEnd.Proofs.Diagnoses
import MiddleEnd.Proofs.Folding
import MiddleEnd.Proofs.ValueNumbers
import MiddleEnd.Transform.StrengthReduction

/-!
# Induction variables

What holds all the time while induction variables are reduced. Each of them has an instruction that
defines it, a phi or a linear operation, and its header has an immediate dominator. What is kept for
reuse is there and of the right type: new instructions only come in, and those that go are neither
induction variables nor kept for reuse.
-/

namespace MiddleEnd

def Opcode.Linear (op : Opcode) : Prop := op = .add ∨ op = .sub ∨ op = .mul

theorem Opcode.Linear.not_terminator {op : Opcode} (h : op.Linear) : op.isTerminator = false := by
  rcases h with rfl | rfl | rfl <;> rfl

theorem Verify.binary_of_form {inst : Inst} (h : formFits inst = true) (hop : inst.op.Linear) :
    ∃ x y, inst = .binary inst.op x y := by
  cases inst with
  | binary op x y => exact ⟨x, y, rfl⟩
  | _ => rcases hop with hop | hop | hop <;> cases hop <;> cases h

namespace DataFlow

variable {g g' : DataFlow} {i : InstId} {inst : Inst} {ty : Ty} {v : ValueId} {v? : Option ValueId}

/-- Operands and result are of the type. -/
structure OfType (g : DataFlow) (i : InstId) (inst : Inst) (ty : Ty) : Prop where
  args : ∀ v ∈ inst.args, g.ty v = .ok ty
  result : ∀ r, g.result? i = some r → g.ty r = .ok ty
  void : g.result? i = none → ty = .void

/-- The operands of phis and of linear operations are of the type of the result. -/
def Uniform (g : DataFlow) : Prop :=
  ∀ i inst, g.inst? i = some inst → inst.op = .phi ∨ inst.op.Linear → ∃ ty, g.OfType i inst ty

theorem ty_of_kept (hk : ∀ {o}, g.origin? v = some o → g'.origin? v = some o)
    (h : g.ty v = .ok ty) :
    g'.ty v = .ok ty := by
  obtain ⟨o, ho, hty⟩ := ty_eq_ok.1 h
  exact ty_eq_ok.2 ⟨o, hk ho, hty⟩

theorem Onward.ty_of (h : Onward g g') (hv : v.index < g.values.bound) (ht : g'.ty v = .ok ty) :
    g.ty v = .ok ty := by
  obtain ⟨o, ho, hty⟩ := ty_eq_ok.1 ht
  exact ty_eq_ok.2 ⟨o, h.origin? hv ho, hty⟩

theorem Grown.origin_of_some (h : Grown g g' i inst ty v?) {o : ValueDef}
    (hv : g.origin? v = some o) :
    g'.origin? v = some o := by
  rw [h.origin?, if_neg fun he => ?_, hv]
  cases hv.symm.trans (h.value_fresh v he)

theorem Grown.inst_of_some (h : Grown g g' i inst ty v?) {j : InstId} {jnst : Inst}
    (hj : g.inst? j = some jnst) :
    g'.inst? j = some jnst := by
  rw [h.inst?, if_neg fun he => ?_, hj]
  cases hj.symm.trans (he ▸ h.fresh)

theorem Grown.result_of_some (h : Grown g g' i inst ty v?) {j : InstId} {jnst : Inst}
    (hj : g.inst? j = some jnst) :
    g'.result? j = g.result? j := by
  rw [h.result?, if_neg fun he => ?_]
  cases hj.symm.trans (he ▸ h.fresh)

theorem Uniform.grow (h : g.Uniform) (hgrown : Grown g g' i inst ty v?)
    (hargs : ∀ v ∈ inst.args, g.ty v = .ok ty) :
    g'.Uniform := by
  intro j jnst hj hop
  rcases hgrown.inst_cases hj with ⟨rfl, rfl⟩ | ⟨hne, hj⟩
  · have hresult : g'.result? j = v? := by rw [hgrown.result?, if_pos rfl]
    refine ⟨ty, fun v hv => ty_of_kept hgrown.origin_of_some (hargs v hv), fun r hr => ?_,
      fun hnone => ?_⟩
    · refine ty_of_origin (o := .result ty j) ?_
      rw [hgrown.origin?, if_pos (hresult.symm.trans hr)]
    · exact hgrown.yields.1 (hresult.symm.trans hnone)
  · obtain ⟨ty', hty⟩ := h j jnst hj hop
    have hresult := hgrown.result_of_some hj
    refine ⟨ty', fun v hv => ty_of_kept hgrown.origin_of_some (hty.args v hv), fun r hr => ?_,
      fun hnone => ?_⟩
    · exact ty_of_kept hgrown.origin_of_some (hty.result r (hresult.symm.trans hr))
    · exact hty.void (hresult.symm.trans hnone)

theorem Uniform.rewire {ρ : InstId → Inst → Inst} (h : g.Uniform) (hr : Rewired g g' ρ)
    (hop : ∀ {j jnst}, g.inst? j = some jnst → (ρ j jnst).op = jnst.op)
    (hargs : ∀ {j jnst ty}, g.inst? j = some jnst → g.OfType j jnst ty → ∀ v ∈ (ρ j jnst).args,
      g.ty v = .ok ty) :
    g'.Uniform := by
  intro j jnst hj hplain
  rw [hr.inst?] at hj
  obtain ⟨old, hold, rfl⟩ := Option.map_eq_some_iff.1 hj
  rw [hop hold] at hplain
  obtain ⟨ty, hty⟩ := h j old hold hplain
  refine ⟨ty, fun v hv => hr.ty (hargs hold hty v hv), fun r hres => hr.ty (hty.result r ?_),
    fun hnone => hty.void ?_⟩
  · exact (hr.result? j).symm.trans hres
  · exact (hr.result? j).symm.trans hnone

theorem Uniform.setArg {n : Nat} (h : g.Uniform) (hi : g.inst? i = some inst)
    (hn : n < inst.args.length)
    (hr : Rewired g g' fun j jnst => if j = i then inst.setArg n v else jnst)
    (hv : ∀ {ty}, g.OfType i inst ty → g.ty v = .ok ty) : g'.Uniform := by
  refine h.rewire hr (fun {j jnst} hj => ?_) fun {j jnst ty} hj hty => ?_
  · split
    · rename_i he
      cases hj.symm.trans (he ▸ hi)
      exact Inst.op_setArg ..
    · rfl
  · split
    · rename_i he
      subst he
      cases hj.symm.trans hi
      rw [Inst.args_setArg v hn]
      intro w hw
      rcases List.mem_or_eq_of_mem_set hw with hw | rfl
      · exact hty.args w hw
      · exact hv hty
    · exact hty.args

theorem Uniform.replace {old new : ValueId} (h : g.Uniform)
    (hr : Rewired g g' fun _ inst => inst.mapArgs (swap old new))
    (hv : ∀ {ty}, g.ty old = .ok ty → g.ty new = .ok ty) : g'.Uniform := by
  refine h.rewire hr (fun _ => Inst.op_mapArgs ..) fun {j jnst ty} hj hty w hw => ?_
  rw [Inst.args_mapArgs] at hw
  obtain ⟨x, hx, rfl⟩ := List.mem_map.1 hw
  unfold swap
  split
  · rename_i he
    exact hv (he ▸ hty.args x hx)
  · exact hty.args x hx

theorem Uniform.shrink (h : g.Uniform) (hs : Shrunk g g' i) (hg : g'.Exact) : g'.Uniform := by
  have hback : ∀ {v o}, g'.origin? v = some o → g.origin? v = some o := by
    intro v o ho
    rw [hs.origin?] at ho
    split at ho
    · cases ho
    · exact ho
  have hkept : ∀ {v o ty}, g'.origin? v = some o → g.ty v = .ok ty → g'.ty v = .ok ty := by
    intro v o ty ho hty
    cases (ty_of_origin (hback ho)).symm.trans hty
    exact ty_of_origin ho
  intro j jnst hj hop
  obtain ⟨hne, hold⟩ := hs.inst_of hj
  obtain ⟨ty, hty⟩ := h j jnst hold hop
  have hresult : g'.result? j = g.result? j := by rw [hs.result?, if_neg hne]
  refine ⟨ty, fun v hv => ?_, fun r hr => ?_, fun hnone => hty.void (hresult.symm.trans hnone)⟩
  · obtain ⟨o, ho⟩ := hg.operand hj hv
    exact hkept ho (hty.args v hv)
  · obtain ⟨_, ho, -⟩ := hg.result_origin hr
    exact hkept ho (hty.result r (hresult.symm.trans hr))

end DataFlow

theorem Func.Valid.uniform {f : Func} {entry : BlockId} (h : f.Valid entry) (hc : f.Coherent) :
    f.flow.Uniform := by
  intro i inst hi hop
  obtain ⟨hform, hrule⟩ := h.types hi
  have hargs : ∀ v ∈ inst.args, f.tyOf v = f.yieldTy i := by
    rcases hop with hop | hop
    · obtain ⟨args, preds, rfl⟩ := Verify.phi_of_form hform (by rw [hop]; rfl)
      exact hrule
    · obtain ⟨x, y, he⟩ := Verify.binary_of_form hform hop
      rw [he] at hrule
      obtain ⟨-, hx, hy⟩ : (f.yieldTy i).isInt = true ∧ f.tyOf x = f.yieldTy i ∧
          f.tyOf y = f.yieldTy i := by
        unfold Opcode.Linear at hop
        rcases hop with hop | hop | hop <;> rw [hop] at hrule <;> exact hrule
      rw [he]
      simp [Inst.args, hx, hy]
  refine ⟨f.yieldTy i, fun v hv => by rw [hc.ty_ok hi hv, hargs v hv], fun r hr => ?_,
    fun hnone => ?_⟩
  · obtain ⟨ty, ho, -⟩ := hc.flow.result_origin hr
    rw [DataFlow.ty_of_origin ho, yieldTy, hr, Option.map_some, Option.getD_some, tyOf_eq ho]
  · rw [yieldTy, hnone]
    rfl

theorem Func.Valid.legible {f : Func} {entry : BlockId} (h : f.Valid entry) : f.flow.Legible := by
  intro i inst hi
  obtain ⟨hform, hrule⟩ := h.types hi
  refine ⟨hform, fun {callee} hcallee => ?_⟩
  cases inst with
  | call op f args =>
    cases hcallee
    obtain ⟨target, ht, -⟩ := hrule
    exact ⟨target, ht⟩
  | _ => cases hcallee

namespace StrengthReduction

variable {t : DominatorTree} {s s' : State} {i : InstId} {inst : Inst} {v : ValueId} {w : Nat}

/-- The value is the integer result of a phi or a linear operation. -/
def Derived (s : State) (v : ValueId) : Prop :=
  ∃ w i inst, s.flow.origin? v = some (.result (.int w) i) ∧ s.flow.inst? i = some inst ∧
    (inst.op = .phi ∨ inst.op.Linear)

/-- Every induction variable has an instruction that defines it and a header with an immediate
dominator. -/
def Anchored (t : DominatorTree) (s : State) : Prop :=
  ∀ v h, s.headers.get? v = some h →
    (∃ i inst, s.flow.definer v = .ok i ∧ s.flow.inst i = .ok inst) ∧ ∃ d, t.idom? h = some d

structure Steady (t : DominatorTree) (s : State) : Prop where
  coherent : s.func.Coherent
  legible : s.flow.Legible
  uniform : s.flow.Uniform
  current : t.isCurrent s.func = true
  idom : ∀ {b d}, t.idom? b = some d → d ∈ s.func.blocks
  header : ∀ {v h}, s.headers.get? v = some h → Derived s v ∧ ∃ d, t.idom? h = some d
  memo : ∀ {a op b v}, s.memo.get? (a, op, b) = some v → a.index < s.flow.values.bound ∧
    ∃ ty, s.flow.ty v = .ok ty ∧ ∀ {ty'}, s.flow.ty a = .ok ty' → ty' = ty

theorem Steady.anchored (h : Steady t s) : Anchored t s := by
  intro v b hb
  obtain ⟨⟨w, i, inst, ho, hi, -⟩, hd⟩ := h.header hb
  refine ⟨⟨i, inst, ?_, DataFlow.inst_eq_ok.2 hi⟩, hd⟩
  simp [DataFlow.definer, DataFlow.definer?, DataFlow.origin_eq_ok.2 ho]

theorem Steady.rebuild (h : Steady t s) {b : Builder} (hc : b.func.Coherent) (hl : b.flow.Legible)
    (hu : b.flow.Uniform) (ha : Func.Alike s.func b.func) (he : b.flow.epoch = s.flow.epoch)
    (ho : DataFlow.Onward s.flow b.flow) (gone : ValueId → Prop)
    (hgone : ∀ {v}, gone v → s.headers.get? v = none ∧ ∀ k, s.memo.get? k ≠ some v)
    (hkept : ∀ {v o}, ¬ gone v → s.flow.origin? v = some o → b.flow.origin? v = some o)
    (hop : ∀ {i inst v}, s.flow.inst? i = some inst → s.flow.result? i = some v → ¬ gone v →
      ∃ inst', b.flow.inst? i = some inst' ∧ inst'.op = inst.op) :
    Steady t { s with builder := b } where
  coherent := hc
  legible := hl
  uniform := hu
  current := by
    have hcurrent := h.current
    rw [DominatorTree.isCurrent, beq_iff_eq] at hcurrent ⊢
    exact hcurrent.trans he.symm
  idom hd := by
    show _ ∈ b.func.layout.blocks
    rw [ha.blocks]
    exact h.idom hd
  header {v b'} hb := by
    obtain ⟨⟨w, i, inst, horigin, hi, hplain⟩, hd⟩ := h.header hb
    have hstays : ¬ gone v := fun hv => by cases (hgone hv).1.symm.trans hb
    obtain ⟨inst', hi', he'⟩ := hop hi (h.coherent.flow.origin_result horigin) hstays
    exact ⟨⟨w, i, inst', hkept hstays horigin, hi', he' ▸ hplain⟩, hd⟩
  memo {a op b' v} hm := by
    obtain ⟨hlt, ty, hty, hsame⟩ := h.memo hm
    have hstays : ¬ gone v := fun hv => (hgone hv).2 _ hm
    refine ⟨Nat.lt_of_lt_of_le hlt ho.bound, ty,
      DataFlow.ty_of_kept (hkept hstays) hty, fun ht => ?_⟩
    exact hsame (ho.ty_of hlt ht)

theorem Steady.note (h : Steady t s) (hv : Derived s v) {b d : BlockId} (hd : t.idom? b = some d) :
    Steady t { s with headers := s.headers.insert v b } where
  coherent := h.coherent
  legible := h.legible
  uniform := h.uniform
  current := h.current
  idom := h.idom
  header {u c} hc := by
    rw [Dict.get?_insert] at hc
    split at hc
    · rename_i he
      cases hc
      exact ⟨he ▸ hv, d, hd⟩
    · exact h.header hc
  memo := h.memo

theorem Steady.remember (h : Steady t s) {a b : ValueId} {op : Opcode} {ty : Ty}
    (ha : s.flow.ty a = .ok ty) (hv : s.flow.ty v = .ok ty) :
    Steady t { s with memo := s.memo.insert (a, op, b) v } where
  coherent := h.coherent
  legible := h.legible
  uniform := h.uniform
  current := h.current
  idom := h.idom
  header := h.header
  memo {a' op' b' v'} hm := by
    rw [Dict.get?_insert] at hm
    split at hm
    · rename_i he
      cases he
      cases hm
      obtain ⟨o, ho, -⟩ := DataFlow.ty_eq_ok.1 ha
      exact ⟨DataFlow.origin?_lt_bound ho, ty, hv, fun ht => Except.ok.inj (ht.symm.trans ha)⟩
    · exact h.memo hm

/-- New instructions may have come in. What is noted of the values there before is the same, and
none of the results there before has been kept for reuse. -/
structure Keeps (s s' : State) : Prop where
  inst? : ∀ {i inst}, s.flow.inst? i = some inst → s'.flow.inst? i = some inst
  result? : ∀ {i inst}, s.flow.inst? i = some inst → s'.flow.result? i = s.flow.result? i
  origin? : ∀ {v o}, s.flow.origin? v = some o → s'.flow.origin? v = some o
  header : ∀ {v o}, s.flow.origin? v = some o → s'.headers.get? v = s.headers.get? v
  memo : ∀ {k v}, s.memo.get? k = some v → s'.memo.get? k = some v
  made : ∀ {k v ty i}, s'.memo.get? k = some v → s.flow.origin? v = some (.result ty i) →
    ∃ k', s.memo.get? k' = some v

theorem Keeps.refl (s : State) : Keeps s s where
  inst? h := h
  result? _ := rfl
  origin? h := h
  header _ := rfl
  memo h := h
  made h _ := ⟨_, h⟩

theorem Keeps.trans {s'' : State} (h : Keeps s s') (h' : Keeps s' s'') : Keeps s s'' where
  inst? hi := h'.inst? (h.inst? hi)
  result? hi := (h'.result? (h.inst? hi)).trans (h.result? hi)
  origin? hv := h'.origin? (h.origin? hv)
  header hv := (h'.header (h.origin? hv)).trans (h.header hv)
  memo hk := h'.memo (h.memo hk)
  made hk hv := by
    obtain ⟨k', hk'⟩ := h'.made hk (h.origin? hv)
    exact h.made hk' hv

theorem Keeps.ty (h : Keeps s s') {ty : Ty} (hv : s.flow.ty v = .ok ty) : s'.flow.ty v = .ok ty :=
  DataFlow.ty_of_kept h.origin? hv

theorem Keeps.note (h : Keeps s s') (hv : s.flow.origin? v = none) (b : BlockId) :
    Keeps s { s' with headers := s'.headers.insert v b } where
  inst? := h.inst?
  result? := h.result?
  origin? := h.origin?
  header {u o} hu := by
    rw [Dict.get?_insert, if_neg fun he => ?_, h.header hu]
    cases hv.symm.trans (he ▸ hu)
  memo := h.memo
  made := h.made

theorem Keeps.remember (h : Keeps s s') {k : ValueId × Opcode × ValueId} (hk : s.memo.get? k = none)
    (hv : ∀ ty i, s.flow.origin? v ≠ some (.result ty i)) :
    Keeps s { s' with memo := s'.memo.insert k v } where
  inst? := h.inst?
  result? := h.result?
  origin? := h.origin?
  header := h.header
  memo {k' v'} hk' := by
    rw [Dict.get?_insert, if_neg fun he => ?_, h.memo hk']
    cases hk.symm.trans (he ▸ hk')
  made {k' v' ty i} hk' ho := by
    rw [Dict.get?_insert] at hk'
    split at hk'
    · cases hk'
      exact absurd ho (hv ty i)
    · exact h.made hk' ho

theorem Steady.readable (h : Steady t s) : s.func.Readable :=
  ⟨h.coherent.flow.recorded, h.legible, h.coherent.arranged⟩

theorem onward_insert {b b' : Builder} {ty : Ty} (h : b.insert inst ty = .ok (i, b')) :
    DataFlow.Onward b.flow b'.flow := by
  obtain ⟨⟨j, g⟩, hadd, h⟩ := bind_eq_ok.1 h
  obtain ⟨_, -, h⟩ := bind_eq_ok.1 h
  cases h
  exact DataFlow.onward_editing.addInst hadd

/-- A new instruction with an integer result. -/
structure Added (t : DominatorTree) (s : State) (inst : Inst) (w : Nat) (i : InstId) (v : ValueId)
    (b : Builder) :
    Prop where
  inst? : b.flow.inst? i = some inst
  origin? : b.flow.origin? v = some (.result (.int w) i)
  fresh : s.flow.inst? i = none
  new : s.flow.origin? v = none
  steady : Steady t { s with builder := b }
  keeps : Keeps s { s with builder := b }

theorem Added.result? {b : Builder} (h : Added t s inst w i v b) : b.flow.result? i = some v :=
  h.steady.coherent.flow.origin_result h.origin?

theorem Steady.insert_ok (h : Steady t s) (hlegible : inst.Legible s.flow)
    (hop : inst.op.isTerminator = false) (hargs : ∀ v ∈ inst.args, s.flow.ty v = .ok (.int w))
    (hphi : ∀ op args preds, inst = .phi op args preds → args.length = preds.length)
    {pos : InsertPos} {c : BlockId} {pre post : List InstId}
    (hc : s.func.insts c = .ok (pre ++ post)) (hgap : pos.Gap c pre post) :
    ∃ i v b, (s.builder.goTo pos).insert inst (.int w) = .ok (i, b) ∧ Added t s inst w i v b := by
  have hthere : ∀ v ∈ inst.args, ∃ o, s.flow.origin? v = some o := fun v hv => by
    obtain ⟨o, ho, -⟩ := DataFlow.ty_eq_ok.1 (hargs v hv)
    exact ⟨o, ho⟩
  obtain ⟨i, b, v?, hrun, hcoherent, hinserted, -⟩ :=
    Builder.insert_ok (b := s.builder.goTo pos) h.coherent (.int w) hthere hphi hc hgap
  have hgrown : DataFlow.Grown s.flow b.flow i inst (.int w) v? := hinserted.grown
  obtain ⟨v, rfl⟩ : ∃ v, v? = some v := Option.ne_none_iff_exists'.1 fun hnone =>
    by cases hgrown.yields.1 hnone
  refine ⟨i, v, b, hrun, ?_, ?_, hgrown.fresh, hgrown.value_fresh v rfl, ?_, ?_⟩
  · rw [hgrown.inst?, if_pos rfl]
  · rw [hgrown.origin?, if_pos rfl]
  · refine h.rebuild hcoherent (hgrown.legible hlegible h.legible) (h.uniform.grow hgrown hargs)
      hinserted.alike (hgrown.epoch hop) (onward_insert (b := s.builder.goTo pos) hrun) (fun _ =>
      False) False.elim (fun _ ho => hgrown.origin_of_some ho) ?_
    exact fun hj _ _ => ⟨_, hgrown.inst_of_some hj, rfl⟩
  · exact
      { inst? := hgrown.inst_of_some
        result? := hgrown.result_of_some
        origin? := hgrown.origin_of_some
        header := fun _ => rfl
        memo := fun hk => hk
        made := fun hk _ => ⟨_, hk⟩ }

theorem Steady.setArg_ok (h : Steady t s) (hi : s.flow.inst? i = some inst) {n : Nat}
    (hn : n < inst.args.length) {r : ValueId} (hr : s.flow.origin? r = some (.result (.int w) i))
    (hv : s.flow.ty v = .ok (.int w)) :
    ∃ g, s.setArg i n v = .ok (s.withFlow g) ∧ Steady t (s.withFlow g) ∧
      g.inst? i = some (inst.setArg n v) ∧
      (∀ {u o}, s.flow.origin? u = some o → g.origin? u = some o) ∧
      ∀ {s₀}, Keeps s₀ s → s₀.flow.inst? i = none → Keeps s₀ (s.withFlow g) := by
  obtain ⟨o, ho, -⟩ := DataFlow.ty_eq_ok.1 hv
  obtain ⟨g, hset, hexact, hrewired⟩ := DataFlow.setArg_ok (g := s.flow) h.coherent.flow hi hn ho
  have hother : ∀ {j jnst}, j ≠ i → s.flow.inst? j = some jnst →
      g.inst? j = some jnst := fun hne hj => by
    rw [hrewired.inst?, hj, Option.map_some, if_neg hne]
  have hself : g.inst? i = some (inst.setArg n v) := by
    rw [hrewired.inst?, hi, Option.map_some, if_pos rfl]
  refine ⟨g, by rw [State.setArg, hset, ok_bind]; rfl, ?_, hself, hrewired.origin?,
    fun {s₀} hk hfresh => ?_⟩
  · refine h.rebuild (b := s.builder.withFlow g) (h.coherent.rewire hexact hrewired)
      ((DataFlow.setArg_kept hset).legible h.legible)
      (h.uniform.setArg hi hn hrewired fun hty => ?_) ⟨rfl, rfl, rfl,
      rfl⟩ hrewired.epoch (DataFlow.onward_editing.setArg hset) (fun _ => False) False.elim
      (fun _ hu => hrewired.origin? hu) ?_
    · cases (DataFlow.ty_of_origin hr).symm.trans (hty.result r (h.coherent.flow.origin_result hr))
      exact hv
    · intro j jnst _ hj _ _
      by_cases hne : j = i
      · subst hne
        cases hj.symm.trans hi
        exact ⟨_, hself, Inst.op_setArg ..⟩
      · exact ⟨_, hother hne hj, rfl⟩
  · exact
      { inst? := fun hj => hother (fun he => by cases hfresh.symm.trans (he ▸ hj)) (hk.inst? hj)
        result? := fun hj => (hrewired.result? _).trans (hk.result? hj)
        origin? := fun hu => hrewired.origin? (hk.origin? hu)
        header := hk.header
        memo := hk.memo
        made := hk.made }

theorem gap_after {xs : List InstId} (hi : i ∈ xs) (c : BlockId) :
    ∃ pre post, xs = pre ++ post ∧ InsertPos.Gap (.after i) c pre post := by
  obtain ⟨pre, post, rfl⟩ := List.append_of_mem hi
  exact ⟨pre ++ [i], post, by simp, .after i c pre post⟩

theorem cloneDefinition_ok (h : Steady t s) {b : BlockId} (hv : s.headers.get? v = some b)
    (hty : s.flow.ty v = .ok (.int w)) :
    (cloneDefinition s v).Succeeds True fun r => ∃ j, s.flow.origin? v = some (.result (.int w) j) ∧
      s.flow.inst? j = some r.1 ∧ (r.1.op = .phi ∨ r.1.op.Linear) ∧
      Added t s r.1 w r.2.1 r.2.2.1 r.2.2.2.builder ∧
      r.2.2.2 = { s with builder := r.2.2.2.builder } := by
  obtain ⟨⟨w', j, inst, ho, hj, hplain⟩, -⟩ := h.header hv
  cases (DataFlow.ty_of_origin ho).symm.trans hty
  have hterm : inst.op.isTerminator = false := by
    rcases hplain with hop | hop
    · rw [hop]
      rfl
    · exact hop.not_terminator
  obtain ⟨ty, hofty⟩ := h.uniform j inst hj hplain
  cases (hofty.result v (h.coherent.flow.origin_result ho)).symm.trans hty
  obtain ⟨c, xs, hxs, hmem⟩ := h.coherent.home hj
  obtain ⟨pre, post, rfl, hgap⟩ := gap_after hmem c
  obtain ⟨i, r, b', hrun, hadded⟩ := h.insert_ok (h.legible hj) hterm hofty.args
    (fun op args preds he => h.coherent.flow.phi_lengths (he ▸ hj)) hxs hgap
  unfold cloneDefinition
  refine (Run.succeeds_lift (P := (· = j)) ⟨j, ?_, rfl⟩).bind ?_
  · simp [DataFlow.definer, DataFlow.definer?, DataFlow.origin_eq_ok.2 ho]
  rintro _ rfl
  refine (Run.succeeds_lift (P := (· = inst)) ⟨_, DataFlow.inst_eq_ok.2 hj, rfl⟩).bind ?_
  rintro _ rfl
  refine (Run.succeeds_lift (P := (· = .int w)) ⟨_, hty, rfl⟩).bind ?_
  rintro _ rfl
  refine (Run.succeeds_lift (P := (· = (i, b'))) ⟨_, hrun, rfl⟩).bind ?_
  rintro _ rfl
  refine (Run.succeeds_lift (P := (· = r)) ⟨_, DataFlow.result_eq_ok.2 hadded.result?, rfl⟩).bind ?_
  rintro _ rfl
  refine (Run.succeeds_log fun _ => ?_).bind fun _ _ => ?_
  · obtain ⟨text, htext⟩ := Verify.instText_ok hadded.steady.readable (hadded.keeps.inst? hj)
    exact ⟨_, by rw [show b'.func.instText _ = _ from htext, ok_bind]; rfl⟩
  · exact Run.succeeds_pure ⟨_, ho, hj, hplain, hadded, rfl⟩

theorem atTerminator_ok {b : Builder} {c : BlockId} (hc : c ∈ b.func.blocks) :
    ∃ pos pre post, b.atTerminator c = .ok (b.goTo pos) ∧ b.func.insts c = .ok (pre ++ post) ∧
      InsertPos.Gap pos c pre post := by
  obtain ⟨xs, hxs⟩ := Layout.mem_blocks_iff.1 hc
  have hlast : b.func.terminator? c = .ok (xs.getLast?.filter b.func.flow.isTerminator) := by
    rw [Func.terminator?, Layout.lastInst?, show b.func.layout.insts c = .ok xs from hxs]
    rfl
  unfold Builder.atTerminator
  rw [hlast, ok_bind]
  split
  · rename_i t ht
    obtain ⟨front, rfl⟩ := List.getLast?_eq_some_iff.1 (Option.filter_eq_some_iff.1 ht).1
    exact ⟨.before t, front, [t], rfl, hxs, .before t c front []⟩
  · exact ⟨.append c, xs, [], rfl, by rw [List.append_nil]; exact hxs, .append c xs⟩

/-- A value before the loop is of the type of its operands, and no result that was there before. -/
structure Materialized (t : DominatorTree) (s : State) (w : Nat) (r : ValueId × State) : Prop where
  steady : Steady t r.2
  keeps : Keeps s r.2
  memo : r.2.memo = s.memo
  ty : r.2.flow.ty r.1 = .ok (.int w)
  new : ∀ ty i, s.flow.origin? r.1 ≠ some (.result ty i)

theorem Steady.const_ok (h : Steady t s) (x : Word) : ∃ v g, s.flow.const x = (v, g) ∧
    Materialized t s x.width (v, s.withFlow g) := by
  obtain ⟨v, g, hshared, ho, hexact, hrewired⟩ :=
    DataFlow.shared_ok h.coherent.flow (o := .const x) (.inl rfl)
  have hinst : ∀ {i inst}, s.flow.inst? i = some inst → g.inst? i = some inst := fun hi => by
    rw [hrewired.inst?, show s.func.flow.inst? _ = _ from hi]
    rfl
  have hkept := DataFlow.shared_kept s.flow (.const x)
  have honward := DataFlow.onward_editing.shared s.flow (.const x)
  rw [show s.flow.shared (.const x) = (v, g) from hshared] at hkept honward
  refine ⟨v, g, hshared, ?_, ?_, rfl, DataFlow.ty_of_origin ho, fun ty i hr => ?_⟩
  · refine h.rebuild (b := s.builder.withFlow g) (h.coherent.rewire hexact hrewired)
      (hkept.legible h.legible) (h.uniform.rewire hrewired (fun _ => rfl) fun _ hty => hty.args)
      ⟨rfl, rfl, rfl, rfl⟩ hrewired.epoch honward (fun _ => False) False.elim (fun _ hu =>
      hrewired.origin? hu) fun hi _ _ => ⟨_, hinst hi, rfl⟩
  · exact
      { inst? := hinst
        result? := fun _ => hrewired.result? _
        origin? := hrewired.origin?
        header := fun _ => rfl
        memo := fun hk => hk
        made := fun hk _ => ⟨_, hk⟩ }
  · cases ho.symm.trans (hrewired.origin? hr)

theorem Steady.binary_ok (h : Steady t s) {op : Opcode} (hop : op.Linear) {a b : ValueId}
    (ha : s.flow.ty a = .ok (.int w)) (hb : s.flow.ty b = .ok (.int w)) {c : BlockId}
    (hc : c ∈ s.func.blocks) :
    ∃ d v b', s.builder.atTerminator c = .ok d ∧ d.binary none op a b = .ok (v, b') ∧
      Materialized t s w (v, { s with builder := b' }) := by
  obtain ⟨pos, pre, post, hat, hxs, hgap⟩ := atTerminator_ok hc
  have hlegible : (Inst.binary op a b).Legible s.flow := by
    refine ⟨?_, fun {f} hf => by cases hf⟩
    rcases hop with rfl | rfl | rfl <;> rfl
  obtain ⟨i, v, b', hrun, hadded⟩ := h.insert_ok hlegible hop.not_terminator
    (fun u hu => by
      rcases List.mem_pair.1 hu with rfl | rfl
      · exact ha
      · exact hb)
    (fun op args preds he => by cases he) hxs hgap
  refine ⟨_, v, b', hat, ?_, hadded.steady, hadded.keeps, rfl, DataFlow.ty_of_origin hadded.origin?,
    fun ty i hr => ?_⟩
  · have hop' : op.isCompare = false ∧ op.isBinaryArith = true := by
      rcases hop with rfl | rfl | rfl <;> exact ⟨rfl, rfl⟩
    unfold Builder.binary Builder.emitValue Builder.emit
    dsimp only
    rw [if_neg (by rw [hop'.1]; exact Bool.false_ne_true), if_pos hop'.2,
      show (s.builder.goTo pos).flow.ty a = _ from ha, ok_bind, hrun]
    simp only [ok_bind, DataFlow.result_eq_ok.2 hadded.result?]
  · cases hadded.new.symm.trans hr

theorem evalBinary_linear {op : Opcode} (h : op.Linear) {x y : Word} (hw : x.width = y.width) :
    ∃ z, Word.evalBinary op x y = .ok (some z) := by
  rcases h with rfl | rfl | rfl <;> exact ⟨_, if_pos hw⟩

theorem materialize_ok (h : Steady t s) {op : Opcode} (hop : op.Linear) {a b : ValueId}
    (ha : s.flow.ty a = .ok (.int w)) (hb : s.flow.ty b = .ok (.int w)) {c d : BlockId}
    (hd : t.idom? c = some d) :
    (materialize t s op a b c).Succeeds True (Materialized t s w) := by
  obtain ⟨o, ho, -⟩ := DataFlow.ty_eq_ok.1 ha
  obtain ⟨o', ho', -⟩ := DataFlow.ty_eq_ok.1 hb
  obtain ⟨p, hp, hpair⟩ := DataFlow.constPair?_ok ho ho'
  unfold materialize
  refine (Run.succeeds_lift (P := (· = p)) ⟨p, hp, rfl⟩).bind ?_
  rintro q rfl
  cases q with
  | some xy =>
    obtain ⟨x, y⟩ := xy
    obtain ⟨hx, hy⟩ := hpair x y rfl
    have hxw : x.width = w := Ty.int.inj (Except.ok.inj ((DataFlow.ty_of_origin hx).symm.trans ha))
    have hyw : y.width = w := Ty.int.inj (Except.ok.inj ((DataFlow.ty_of_origin hy).symm.trans hb))
    obtain ⟨z, hz⟩ := evalBinary_linear hop (hxw.trans hyw.symm)
    refine (Run.succeeds_lift (P := (· = some z)) ⟨_, hz, rfl⟩).bind ?_
    rintro _ rfl
    obtain ⟨v, g, hconst, hmade⟩ := h.const_ok z
    dsimp only
    rw [hconst, ← (Word.evalBinary_width hz).trans hxw]
    exact Run.succeeds_pure hmade
  | none =>
    obtain ⟨e, v, b', hat, hbinary, hmade⟩ := h.binary_ok hop ha hb (h.idom hd)
    refine (Run.succeeds_pure (P := (· = none)) rfl).bind ?_
    rintro _ rfl
    dsimp only
    rw [hd]
    refine (Run.succeeds_lift (P := (· = e)) ⟨_, hat, rfl⟩).bind ?_
    rintro _ rfl
    refine (Run.succeeds_lift (P := (· = (v, b'))) ⟨_, hbinary, rfl⟩).bind ?_
    rintro _ rfl
    refine (Run.succeeds_log fun _ => ⟨_, rfl⟩).bind fun _ _ => ?_
    exact Run.succeeds_pure hmade

end StrengthReduction

end MiddleEnd
