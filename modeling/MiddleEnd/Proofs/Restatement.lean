import MiddleEnd.Proofs.Folding
import MiddleEnd.Proofs.Phis
import MiddleEnd.Transform.ValueNumbering

/-!
# Restatement

A function is restated one operand at a time: each step puts a value in the place of one that is
equal to it, whatever the run. Types stay as they are. Instructions that compute the same from equal
operands, phis that merge the same and instructions that fold have equal results, so that there is
more to put in their place.
-/

namespace MiddleEnd

theorem Inst.Matches.of_setArg {R : ValueId → ValueId → Prop} {inst : Inst} {n : Nat}
    {a v : ValueId} (hrefl : ∀ x ∈ inst.args, R x x) (hn : inst.args[n]? = some a) (hR : R a v) :
    Inst.Matches R inst (inst.setArg n v) := by
  have hlist : ∀ {xs : List ValueId}, (∀ x ∈ xs, R x x) → xs[n]? = some a →
      ∀ {m : Nat} {b b'}, xs[m]? = some b → (xs.set n v)[m]? = some b' → R b b' := by
    intro xs hx ha m b b' hb hb'
    rw [List.getElem?_set] at hb'
    by_cases hm : n = m
    · subst hm
      rw [hb] at ha
      cases ha
      rw [if_pos rfl, if_pos (List.getElem?_eq_some_iff.1 hb).1] at hb'
      cases hb'
      exact hR
    · rw [if_neg hm, hb] at hb'
      cases hb'
      exact hx b (List.mem_of_getElem? hb)
  cases inst with
  | nullary op => cases hn
  | unary op x =>
    cases n with
    | zero =>
      cases hn
      exact .unary hR
    | succ n => cases hn
  | binary op x y =>
    match n with
    | 0 =>
      cases hn
      exact .binary hR (hrefl y (by simp [Inst.args]))
    | 1 =>
      cases hn
      exact .binary (hrefl x (by simp [Inst.args])) hR
    | n + 2 => cases hn
  | phi op xs preds => exact .phi (List.length_set).symm (hlist hrefl hn)
  | jump op b => cases hn
  | branch op c t e =>
    cases n with
    | zero =>
      cases hn
      exact .branch hR
    | succ n => cases hn
  | call op f xs => exact .call (List.length_set).symm (hlist hrefl hn)

namespace Func

theorem Formed.spot_end {f : Func} {entry b : BlockId} (hf : f.Formed entry)
    (hb : Connects f.Leads entry b) :
    f.Spot f.Leads entry b [] := by
  obtain ⟨xs, hxs⟩ := Layout.mem_blocks_iff.1 (hf.shape.closed.connects_mem hf.starts hb)
  exact ⟨hb, xs, by rw [List.append_nil]; exact hxs⟩

/-- The value is there at a point of the function, or it is the result of an instruction that
control never comes to. -/
def There (f : Func) (entry b : BlockId) (rest : List InstId) (v : ValueId) : Prop :=
  f.Avail f.Leads entry b rest v ∨ f.Stranded entry v

/-- The second value fits where the first one is: it is of the same type and there wherever the
first one is, and in the place of a register it is that register. -/
structure Fits (f : Func) (entry : BlockId) (g : DataFlow) (x n : ValueId) : Prop where
  typed : ∃ ty, g.ty x = .ok ty ∧ g.ty n = .ok ty
  there : ∀ ⦃b rest⦄, f.Spot f.Leads entry b rest → f.There entry b rest x → f.There entry b rest n
  fixed : ∀ ⦃ty⦄, f.flow.origin? x = some (.reg ty) → n = x

/-- The second value fits where the first one is, and it is the same in every run of the
function. -/
structure Equal (f : Func) (entry : BlockId) (g : DataFlow) (x n : ValueId) :
    Prop extends f.Fits entry g x n where
  same : ∀ {E s₀}, f.Orderly E entry → f.AtStart entry s₀ →
    Same f E entry s₀ { f with flow := g } x n

/-- The second data flow is that of the function with values in the place of operands that are
related to them. -/
structure Reworded (f : Func) (R : ValueId → ValueId → Prop) (g : DataFlow) : Prop where
  exact : g.Exact
  rewired : ∃ ρ, DataFlow.Rewired f.flow g ρ ∧ ∀ {i inst}, f.flow.inst? i = some inst →
    Inst.Matches R inst (ρ i inst)

/-- The second data flow is that of the function with equal values in the place of operands. -/
abbrev Restated (f : Func) (entry : BlockId) (g : DataFlow) : Prop := f.Reworded (f.Equal entry g) g

variable {f : Func} {entry : BlockId} {g g' : DataFlow} {ρ : InstId → Inst → Inst} {x n m : ValueId}

theorem Fits.refl {o : ValueDef} (h : g.origin? x = some o) : f.Fits entry g x x :=
  ⟨⟨o.ty, DataFlow.ty_of_origin h, DataFlow.ty_of_origin h⟩, fun _ _ _ h => h, fun _ _ => rfl⟩

theorem Fits.trans (h : f.Fits entry g x n) (h' : f.Fits entry g n m) : f.Fits entry g x m := by
  obtain ⟨ty, hx, hn⟩ := h.typed
  obtain ⟨ty', hn', hm⟩ := h'.typed
  rw [hn] at hn'
  cases hn'
  refine ⟨⟨ty, hx, hm⟩, fun _ _ hs hv => h'.there hs (h.there hs hv), fun ty ho => ?_⟩
  obtain rfl := h.fixed ho
  exact h'.fixed ho

theorem Fits.extend (hR : DataFlow.Rewired g g' ρ) (h : f.Fits entry g x n) :
    f.Fits entry g' x n := by
  obtain ⟨ty, hx, hn⟩ := h.typed
  exact ⟨⟨ty, hR.ty hx, hR.ty hn⟩, h.there, h.fixed⟩

theorem Fits.known (h : f.Fits entry g x n) : ∃ o, g.origin? n = some o := by
  obtain ⟨ty, -, hn⟩ := h.typed
  obtain ⟨o, ho, -⟩ := DataFlow.ty_eq_ok.1 hn
  exact ⟨o, ho⟩

theorem Fits.tyOf_eq (h : f.Fits entry g x n) :
    ({ f with flow := g } : Func).tyOf n = ({ f with flow := g } : Func).tyOf x := by
  obtain ⟨ty, hx, hn⟩ := h.typed
  obtain ⟨o, ho, hox⟩ := DataFlow.ty_eq_ok.1 hx
  obtain ⟨o', ho', hon⟩ := DataFlow.ty_eq_ok.1 hn
  rw [Func.tyOf_eq (f := { f with flow := g }) ho,
    Func.tyOf_eq (f := { f with flow := g }) ho', hox, hon]

theorem Equal.refl {o : ValueDef} (h : g.origin? x = some o) : f.Equal entry g x x :=
  ⟨.refl h, fun _ _ => .refl x⟩

theorem Equal.trans (h : f.Equal entry g x n) (h' : f.Equal entry g n m) : f.Equal entry g x m :=
  ⟨h.toFits.trans h'.toFits,
    fun hf h₀ => (h.same hf h₀).trans hf (hf.sits_atStart h₀) (h'.same hf h₀)⟩

theorem Equal.extend (hR : DataFlow.Rewired g g' ρ) (h : f.Equal entry g x n) :
    f.Equal entry g' x n := by
  obtain ⟨ty, hx, hn⟩ := h.typed
  obtain ⟨o, ho, -⟩ := DataFlow.ty_eq_ok.1 hx
  obtain ⟨o', ho', -⟩ := DataFlow.ty_eq_ok.1 hn
  exact ⟨h.toFits.extend hR,
    fun hf h₀ => (h.same hf h₀).extend ho ho' (hR.origin? ho) (hR.origin? ho')⟩

namespace Reworded

variable {R : ValueId → ValueId → Prop}

theorem mono {R' : ValueId → ValueId → Prop} (h : f.Reworded R g) (imp : ∀ {x n}, R x n → R' x n) :
    f.Reworded R' g := by
  obtain ⟨σ, hσ, hM⟩ := h.rewired
  exact ⟨h.exact, σ, hσ, fun hi => (hM hi).imp fun _ _ _ _ hr => imp hr⟩

theorem result? (h : f.Reworded R g) (i : InstId) : g.result? i = f.flow.result? i := by
  obtain ⟨σ, hσ, -⟩ := h.rewired
  exact hσ.result? i

theorem origin? (h : f.Reworded R g) {v : ValueId} {o : ValueDef} (hv : f.flow.origin? v = some o) :
    g.origin? v = some o := by
  obtain ⟨σ, hσ, -⟩ := h.rewired
  exact hσ.origin? hv

theorem origin_result_iff (h : f.Reworded R g) {v : ValueId} {ty : Ty} {i : InstId} :
    g.origin? v = some (.result ty i) ↔ f.flow.origin? v = some (.result ty i) := by
  obtain ⟨σ, hσ, -⟩ := h.rewired
  exact hσ.origin_result_iff

theorem inst_of (h : f.Reworded R g) {i : InstId} {inst' : Inst} (hi : g.inst? i = some inst') :
    ∃ inst, f.flow.inst? i = some inst ∧ Inst.Matches R inst inst' := by
  obtain ⟨σ, hσ, hM⟩ := h.rewired
  obtain ⟨inst, hinst, rfl⟩ := hσ.exists_inst hi
  exact ⟨inst, hinst, hM hinst⟩

theorem inst_ok (h : f.Reworded R g) {i : InstId} {inst : Inst} (hi : f.flow.inst? i = some inst) :
    ∃ inst', g.inst? i = some inst' ∧ Inst.Matches R inst inst' := by
  obtain ⟨σ, hσ, hM⟩ := h.rewired
  exact ⟨σ i inst, by rw [hσ.inst?, hi, Option.map_some], hM hi⟩

theorem coherent (h : f.Reworded R g) (hf : f.Coherent) :
    ({ f with flow := g } : Func).Coherent := by
  obtain ⟨σ, hσ, -⟩ := h.rewired
  exact hf.rewire h.exact hσ

theorem formed (h : f.Reworded R g) (hf : f.Formed entry) :
    ({ f with flow := g } : Func).Formed entry := by
  obtain ⟨σ, hσ, hM⟩ := h.rewired
  exact hf.rewire h.exact hσ hM

theorem regular (h : f.Reworded R g) (hf : f.Regular entry) :
    ({ f with flow := g } : Func).Regular entry := by
  obtain ⟨σ, hσ, hM⟩ := h.rewired
  exact hf.rewire h.exact hσ hM

theorem isPhi (h : f.Reworded R g) (i : InstId) : g.isPhi i = f.flow.isPhi i := by
  obtain ⟨σ, hσ, hM⟩ := h.rewired
  exact hσ.isPhi (fun hi => (hM hi).op_eq) i

theorem isTerminator (h : f.Reworded R g) (i : InstId) :
    g.isTerminator i = f.flow.isTerminator i := by
  obtain ⟨σ, hσ, hM⟩ := h.rewired
  exact hσ.isTerminator (fun hi => (hM hi).op_eq) i

theorem leads_iff (h : f.Reworded R g) {a b : BlockId} :
    ({ f with flow := g } : Func).Leads a b ↔ f.Leads a b := by
  obtain ⟨σ, hσ, hM⟩ := h.rewired
  exact leads_rewire hσ (fun hi => (hM hi).op_eq) fun hi => (hM hi).blocks_eq

theorem leads_eq (h : f.Reworded R g) : ({ f with flow := g } : Func).Leads = f.Leads := by
  funext a b
  exact propext h.leads_iff

theorem tyOf_eq (h : f.Reworded R g) {v : ValueId} {o : ValueDef} (hv : f.flow.origin? v = some o) :
    ({ f with flow := g } : Func).tyOf v = f.tyOf v := by
  rw [Func.tyOf_eq hv]
  exact Func.tyOf_eq (h.origin? hv)

theorem yieldTy_eq (h : f.Reworded R g) (hf : f.Coherent) (i : InstId) :
    ({ f with flow := g } : Func).yieldTy i = f.yieldTy i :=
  yieldTy_congr hf.flow (h.result? i) fun _ ho => h.origin? ho

theorem dominated (h : f.Reworded (f.Fits entry g) g) (hf : f.Formed entry)
    (hd : f.Dominated entry) :
    ({ f with flow := g } : Func).Dominated entry := by
  obtain ⟨σ, hσ, hM⟩ := h.rewired
  have hthere : ∀ {b rest v}, f.There entry b rest v →
      ({ f with flow := g } : Func).There entry b rest v := by
    intro b rest v hv
    refine hv.imp (fun ha => ?_) (stranded_rewire hσ h.leads_eq)
    rw [h.leads_eq]
    exact (avail_rewire hσ).2 ha
  constructor
  · intro b pre u post inst' v' hcon hb hu hphi hv'
    rw [h.leads_eq] at hcon
    obtain ⟨inst, hinst, hm⟩ := h.inst_of hu
    obtain ⟨v, hv, hfits⟩ := hm.arg_of_mem hv'
    rw [hm.op_eq] at hphi
    exact hthere (hfits.there ⟨hcon, pre, hb⟩ (hd.body hcon hb hinst hphi hv))
  · intro b xs u inst' v' p hcon hb hx hu hphi hv' hp
    rw [h.leads_eq] at hcon hp
    obtain ⟨inst, hinst, hm⟩ := h.inst_of hu
    obtain ⟨v, hv, hfits⟩ := hm.edge_of_mem hv'
    rw [hm.op_eq] at hphi
    exact hthere (hfits.there (hf.spot_end hp) (hd.phis hcon hb hx hinst hphi hv hp))

end Reworded

namespace Restated

theorem refl (hf : f.Coherent) : f.Restated entry f.flow := by
  refine ⟨hf.flow, _, .refl _, fun {i inst} hi => .of_args fun v hv => ?_⟩
  obtain ⟨o, ho⟩ := hf.flow.operand hi hv
  exact .refl ho

theorem fits (h : f.Restated entry g) : f.Reworded (f.Fits entry g) g := h.mono fun he => he.toFits

theorem step (h : f.Restated entry g) (hg : g'.Exact) (hR : DataFlow.Rewired g g' ρ)
    (hM : ∀ {i inst}, g.inst? i = some inst → Inst.Matches (f.Equal entry g') inst (ρ i inst)) :
    f.Restated entry g' := by
  obtain ⟨σ, hσ, hMσ⟩ := h.rewired
  refine ⟨hg, _, hσ.trans hR, fun {i inst} hi => ?_⟩
  have hi' : g.inst? i = some (σ i inst) := by rw [hσ.inst?, hi, Option.map_some]
  refine ((hMσ hi).trans (hM hi')).imp fun a _ c _ hac => ?_
  obtain ⟨b, hab, hbc⟩ := hac
  exact (hab.extend hR).trans hbc

theorem refines (h : f.Restated entry g) : f.Refines { f with flow := g } entry := by
  obtain ⟨σ, hσ, hM⟩ := h.rewired
  intro E args d hs
  exact hs.rewire h.exact hσ fun hstart _ _ hi => (hM hi).imp fun _ _ _ _ he =>
    he.same hs.1 (hs.1.atStart hstart)

theorem setArg (h : f.Restated entry g) {i : InstId} {inst : Inst} {n : Nat} {a v : ValueId}
    (hi : g.inst? i = some inst) (ha : inst.args[n]? = some a) (hav : f.Equal entry g a v) :
    ∃ g', g.setArg i n v = .ok g' ∧ f.Restated entry g' ∧
      DataFlow.Rewired g g' fun j jnst => if j = i then inst.setArg n v else jnst := by
  obtain ⟨o, ho⟩ := hav.known
  obtain ⟨g', hg', hE, hR⟩ := DataFlow.setArg_ok h.exact hi (List.getElem?_eq_some_iff.1 ha).1 ho
  refine ⟨g', hg', h.step hE hR fun {j jnst} hj => ?_, hR⟩
  have hrefl : ∀ x ∈ jnst.args, f.Equal entry g' x x := by
    intro x hx
    obtain ⟨o', ho'⟩ := h.exact.operand hj hx
    exact .refl (hR.origin? ho')
  by_cases hji : j = i
  · subst hji
    rw [hi] at hj
    cases hj
    rw [if_pos rfl]
    exact .of_setArg hrefl ha (hav.extend hR)
  · rw [if_neg hji]
    exact .of_args hrefl

theorem shared (h : f.Restated entry g) (hg : g'.Exact)
    (hR : DataFlow.Rewired g g' fun _ inst => inst) :
    f.Restated entry g' := by
  refine h.step hg hR fun {i inst} hi => .of_args fun x hx => ?_
  obtain ⟨o, ho⟩ := h.exact.operand hi hx
  exact .refl (hR.origin? ho)

end Restated

end Func

theorem Inst.Matches.rule {R : ValueId → ValueId → Prop} {inst inst' : Inst}
    (hm : Inst.Matches R inst inst') {f f' : Func} {τ τ' : ValueId → Ty} {r : Ty}
    (hR : ∀ {a b}, a ∈ inst.args → R a b → τ' b = τ a) (hsig : f'.sig = f.sig)
    (himp : f'.flow.imports = f.flow.imports)
    (hreg : inst.op = .copy → ∀ {a b}, a ∈ inst.args → R a b →
      (f.flow.origin? a).any (·.isReg) = true →
      (f'.flow.origin? b).any (·.isReg) = true)
    (h : f.Rule τ r inst) : f'.Rule τ' r inst' := by
  cases hm with
  | nullary =>
    unfold Func.Rule at h ⊢
    rw [hsig]
    exact h
  | unary hx =>
    have hx := hR (by simp [Inst.args]) hx
    simp only [Func.Rule, hsig, hx] at h ⊢
    exact h
  | @binary op x x' y y' hx hy =>
    have hxreg := fun hop => hreg hop (by simp [Inst.args]) hx
    have hx := hR (by simp [Inst.args]) hx
    have hy := hR (by simp [Inst.args]) hy
    simp only [Func.Rule, hx, hy] at h ⊢
    by_cases hcopy : op = .copy
    · subst hcopy
      exact ⟨hxreg rfl h.1, h.2⟩
    · rw [if_neg hcopy] at h ⊢
      exact h
  | @phi op args args' preds hlen hargs =>
    intro v hv
    obtain ⟨k, hk⟩ := List.mem_iff_getElem?.1 hv
    have hlt : k < args.length := by
      rw [hlen]
      exact (List.getElem?_eq_some_iff.1 hk).1
    have ha : args[k]? = some args[k] := List.getElem?_eq_getElem hlt
    rw [hR (List.mem_of_getElem? ha) (hargs ha hk)]
    exact h _ (List.mem_of_getElem? ha)
  | jump => trivial
  | branch hc =>
    have hc := hR (by simp [Inst.args]) hc
    simp only [Func.Rule, hc] at h ⊢
    exact h
  | @call op callee args args' hlen hargs =>
    obtain ⟨target, ht, he⟩ := h
    refine ⟨target, by rw [himp]; exact ht, ?_⟩
    rw [← he]
    apply List.ext_getElem?
    intro k
    rw [List.getElem?_map, List.getElem?_map]
    cases ha : args[k]? with
    | none =>
      have : args'[k]? = none := by
        rw [List.getElem?_eq_none_iff] at ha ⊢
        omega
      rw [this]
      rfl
    | some a =>
      have hlt : k < args'.length := by
        rw [← hlen]
        exact (List.getElem?_eq_some_iff.1 ha).1
      have ha' : args'[k]? = some args'[k] := List.getElem?_eq_getElem hlt
      rw [ha', Option.map_some, Option.map_some, hR (List.mem_of_getElem? ha) (hargs ha ha')]

namespace Func

def Typed (f : Func) : Prop :=
  ∀ {i inst}, f.flow.inst? i = some inst → f.Rule f.tyOf (f.yieldTy i) inst

/-- A function that verification passes, without registers and without phis in its entry. -/
structure Clean (f : Func) (entry : BlockId) : Prop where
  coherent : f.Coherent
  verified : f.errors = .ok []
  noRegs : ∀ v ty, f.flow.origin? v ≠ some (.reg ty)
  starts : f.entry = .ok entry
  noPhis : f.phis entry = .ok []

variable {f : Func} {entry : BlockId} {g : DataFlow} {x n : ValueId}

theorem Clean.valid (h : f.Clean entry) : f.Valid entry := by
  obtain ⟨entry', hv⟩ := (errors_eq_nil_iff h.coherent).1 h.verified
  have he := hv.starts
  rw [h.starts] at he
  cases he
  exact hv

theorem Clean.typed (h : f.Clean entry) : f.Typed := fun hi => (h.valid.types hi).2

theorem Valid.formed (h : f.Valid entry) (hc : f.Coherent) (hno : f.phis entry = .ok []) :
    f.Formed entry := by
  refine ⟨hc, h.starts, h.shape, fun hi => (h.types hi).1, fun {xs} hxs i hi => ?_⟩
  obtain ⟨phis, body, last, rfl, hs⟩ := h.shape.shaped hxs
  unfold Func.phis at hno
  rw [hxs, ok_bind] at hno
  have hnil : phis = [] := by
    cases phis with
    | nil => rfl
    | cons p phis =>
      rw [List.cons_append, List.takeWhile_cons, if_pos (hs.isPhi p List.mem_cons_self)] at hno
      cases hno
  subst hnil
  rw [List.nil_append] at hi
  rcases List.mem_append.1 hi with hi | hi
  · exact (hs.plain i hi).1
  · rw [List.mem_singleton.1 hi]
    exact not_phi_of_terminator hs.isTerminator

theorem Clean.regular (h : f.Clean entry) : f.Regular entry := by
  refine ⟨h.valid.formed h.coherent h.noPhis, fun {i x y} hi => ?_⟩
  have hrule := h.typed hi
  simp only [Func.Rule, reduceCtorEq, if_false, if_true] at hrule
  obtain ⟨hreg, -⟩ := hrule
  cases ho : f.flow.origin? x with
  | none =>
    rw [ho] at hreg
    cases hreg
  | some o =>
    rw [ho] at hreg
    cases o with
    | reg ty => exact h.noRegs x ty ho
    | _ => cases hreg

def isClean (f : Func) : Bool :=
  f.errors.toOption.any (·.isEmpty) && f.flow.values.toList.all (!·.2.origin.isReg) &&
    (f.entry >>= f.phis).toOption.any (·.isEmpty)

theorem clean_of_isClean (hc : f.Coherent) (h : f.isClean = true) : ∃ entry, f.Clean entry := by
  unfold isClean at h
  rw [Bool.and_eq_true, Bool.and_eq_true] at h
  obtain ⟨⟨herr, hreg⟩, hphi⟩ := h
  obtain ⟨phis, hp, hnil⟩ := exists_of_any hphi
  obtain ⟨entry, hentry, hp⟩ := bind_eq_ok.1 hp
  rw [List.isEmpty_iff.1 hnil] at hp
  refine ⟨entry, hc, verified_of_any herr, fun v ty hv => ?_, hentry, hp⟩
  obtain ⟨e, hget, ho⟩ := DataFlow.origin?_eq_some.1 hv
  have := List.all_eq_true.1 hreg (v, e) (Table.mem_toList.2 hget)
  rw [ho] at this
  cases this

theorem clean_of_sourced (hc : f.Coherent) (hclean : f.isClean = true)
    (hsource : (f.entry.toOption.any fun entry => (f.predecessors entry).isEmpty) = true) :
    ∃ entry, f.Clean entry ∧ f.predecessors entry = [] := by
  obtain ⟨entry, h⟩ := clean_of_isClean hc hclean
  obtain ⟨entry', hentry, hpreds⟩ := exists_of_any hsource
  rw [h.starts] at hentry
  cases hentry
  exact ⟨entry, h, List.isEmpty_iff.1 hpreds⟩

theorem Clean.returns {f' : Func} (h : f.Clean entry) (hr : f.Refines f' entry)
    {args : List Datum} {d : Datum} (hd : f.Returns args d) : f'.Returns args d :=
  hr.returns h.regular h.valid.dominated hd

theorem Regular.op_ne_copy (hf : f.Regular entry) {i : InstId} {inst : Inst}
    (hi : f.flow.inst? i = some inst) :
    inst.op ≠ .copy := by
  intro he
  have hform := hf.forms hi
  cases inst with
  | binary op x y =>
    cases he
    exact hf.noCopies hi
  | _ =>
    cases he
    cases hform

theorem Fits.isReg (h : f.Fits entry g x n)
    (hg : ∀ {v o}, f.flow.origin? v = some o → g.origin? v = some o)
    (hx : (f.flow.origin? x).any (·.isReg) = true) : (g.origin? n).any (·.isReg) = true := by
  cases ho : f.flow.origin? x with
  | none =>
    rw [ho] at hx
    cases hx
  | some o =>
    rw [ho] at hx
    cases o with
    | reg ty =>
      rw [h.fixed ho, hg ho]
      rfl
    | _ => cases hx

theorem Typed.rewire {R : ValueId → ValueId → Prop} (ht : f.Typed) (hc : f.Coherent)
    (hR : DataFlow.Rewired f.flow g ρ)
    (hM : ∀ {i inst}, f.flow.inst? i = some inst → Inst.Matches R inst (ρ i inst))
    (hty : ∀ {a b o}, R a b → f.flow.origin? a = some o →
      ∃ o', g.origin? b = some o' ∧ o'.ty = o.ty ∧ (o.isReg = true → o'.isReg = true)) :
    ({ f with flow := g } : Func).Typed := by
  intro i inst' hi
  obtain ⟨inst, hinst, rfl⟩ := hR.exists_inst hi
  have hyield : ({ f with flow := g } : Func).yieldTy i = f.yieldTy i :=
    yieldTy_congr hc.flow (hR.result? i) fun _ ho => hR.origin? ho
  rw [hyield]
  refine (hM hinst).rule (f := f) (fun {a b} ha hab => ?_) rfl hR.imports
    (fun _ {a b} ha hab hreg => ?_) (ht hinst)
  · obtain ⟨o, ho⟩ := hc.flow.operand hinst ha
    obtain ⟨o', ho', hoty, -⟩ := hty hab ho
    rw [tyOf_eq ho, tyOf_eq (f := { f with flow := g }) ho', hoty]
  · obtain ⟨o, ho⟩ := hc.flow.operand hinst ha
    obtain ⟨o', ho', -, hisReg⟩ := hty hab ho
    rw [ho] at hreg
    rw [show ({ f with flow := g } : Func).flow.origin? b = some o' from ho']
    exact hisReg hreg

theorem Reworded.types (h : f.Reworded (f.Fits entry g) g) (hf : f.Formed entry) (ht : f.Typed) :
    ({ f with flow := g } : Func).Typed := by
  obtain ⟨σ, hσ, hM⟩ := h.rewired
  refine ht.rewire hf.coherent hσ hM fun {a b o} hab ho => ?_
  obtain ⟨o', ho'⟩ := hab.known
  refine ⟨o', ho', ?_, fun hreg => ?_⟩
  · have hsame := hab.tyOf_eq
    rwa [h.tyOf_eq ho, Func.tyOf_eq ho, Func.tyOf_eq (f := { f with flow := g }) ho'] at hsame
  · have hisReg := hab.isReg h.origin? (by rw [ho]; exact hreg)
    rwa [ho'] at hisReg

theorem Restated.types (h : f.Restated entry g) (hf : f.Regular entry) (ht : f.Typed) :
    ({ f with flow := g } : Func).Typed := h.fits.types hf.toFormed ht

theorem Thinned.yieldTy_eq {f' : Func} {D : List InstId} (h : f.Thinned f' D) (hf : f.Coherent)
    {i : InstId} (hi : i ∉ D) :
    f'.yieldTy i = f.yieldTy i :=
  yieldTy_congr hf.flow (by rw [h.result?, if_neg hi]) fun _ ho => h.origin_result hf hi ho

theorem Thinned.types {f' : Func} {D : List InstId} (h : f.Thinned f' D) (hd : f.Idle D)
    (hf : f.Coherent) (ht : f.Typed) : f'.Typed := by
  intro i inst hi
  obtain ⟨hiD, hinst⟩ := h.inst_of hi
  rw [h.yieldTy_eq hf hiD]
  have hkept : ∀ {a}, a ∈ inst.args → f'.flow.origin? a = f.flow.origin? a := by
    intro a ha
    obtain ⟨o, ho⟩ := hf.flow.operand hinst ha
    exact (h.origin? ho fun j hj => hd.unused hiD hinst a ha j hj).trans ho.symm
  refine Inst.Matches.rule (R := fun a b => b = a) (.of_args fun _ _ => rfl) ?_ h.alike.sig
    h.imports ?_ (ht hinst)
  · rintro a b ha rfl
    obtain ⟨o, ho⟩ := hf.flow.operand hinst ha
    rw [Func.tyOf_eq ho, Func.tyOf_eq ((hkept ha).trans ho)]
  · rintro - a b ha rfl hreg
    rwa [hkept ha]

theorem Valid.thin {f' : Func} {D : List InstId} (hv : f.Valid entry) (hf : f.Coherent)
    (h : f.Thinned f' D) (hd : f.Idle D) (hc : f'.Coherent) : f'.Valid entry where
  starts := h.starts hv.starts
  shape := h.wellShaped hd hv.shape
  types hi := ⟨(hv.types (h.inst_of hi).2).1, h.types hd hf (fun hi => (hv.types hi).2) hi⟩
  dominated := hv.dominated.thin hv.shape hf h hd hc

theorem Orderly.arg_avail {E : BlockId → BlockId → Prop} (hf : f.Orderly E entry) {b : BlockId}
    {rest : List InstId} {i : InstId} {inst : Inst} {v : ValueId} (hspot : f.Spot E entry b rest)
    (hi : f.flow.inst? i = some inst) (hphi : inst.op.isPhi = false) (hv : v ∈ inst.args)
    (hb : f.Behind E entry b rest i) :
    f.Avail E entry b rest v := by
  intro ty j ho
  obtain ⟨home, xs, hhome, hx⟩ := hf.coherent.home hi
  obtain ⟨hg, -⟩ := (hf.behind_iff hhome hx).1 hb
  obtain ⟨pre, post, rfl, -⟩ := split_first hx
  obtain ⟨pre', hpre'⟩ := hspot.suffix
  exact hf.behind_trans hhome (hf.body hg.connects hhome hi hphi hv ho) hpre' hb

theorem Restated.gives (h : f.Restated entry g) {E : BlockId → BlockId → Prop} {s₀ s : Frame}
    (hf : f.Orderly E entry) (h₀ : f.AtStart entry s₀) (hs : Reached f E s₀ s) {i : InstId}
    {inst' : Inst} (hi : g.inst? i = some inst') (hop : inst'.op.isPure = true)
    (hb : f.Behind E entry s.block s.rest i) :
    ∃ r d, f.flow.result? i = some r ∧ s.values r = some d ∧ Frame.Gives
      { f with flow := g } s i inst' d := by
  obtain ⟨inst, hinst, hm⟩ := h.inst_of hi
  obtain ⟨σ, hσ, -⟩ := h.rewired
  rw [hm.op_eq] at hop
  have hstable : inst.op.isStable = true := by
    unfold Opcode.isStable
    rw [hop]
    rfl
  have hphi : inst.op.isPhi = false := by
    revert hop
    cases inst.op <;> decide
  obtain ⟨r, d, hr, hd, hg⟩ := hf.computed h₀ hs hinst hstable hb
  have hspot := (hf.sits_reached (hf.sits_atStart h₀) hs).spot
  refine ⟨r, d, hr, hd, hg.carry hm ?_ (Frame.resultWidth?_rewire hf.coherent.flow hσ i) rfl rfl⟩
  intro x x' a hx he ha
  exact (he.same hf h₀).read_rewire hf hσ hinst hx hs (hf.arg_avail hspot hinst hphi hx hb) ha

theorem Restated.of_fold (h : f.Restated entry g) (hf : f.Regular entry) {i : InstId} {inst : Inst}
    {r v : ValueId} {w : Word} (hi : g.inst? i = some inst) (hpure : inst.op.isPure = true)
    (hr : g.result? i = some r) (hv : g.origin? v = some (.const w))
    (hty : ({ f with flow := g } : Func).yieldTy i = w.ty)
    (hw : ∀ s d, Frame.Gives { f with flow := g } s i inst d → d = .word w) :
    f.Equal entry g r v := by
  obtain ⟨ty, ho, -⟩ := h.exact.result_origin hr
  have hconst : ∀ {ty' j}, f.flow.origin? v ≠ some (.result ty' j) := by
    intro ty' j hj
    rw [← h.origin_result_iff, hv] at hj
    cases hj
  constructor
  · refine ⟨⟨w.ty, ?_, DataFlow.ty_of_origin hv⟩, fun _ _ _ _ => .inl fun ty' j hj =>
      absurd hj hconst, fun ty' ho' => ?_⟩
    · rw [DataFlow.ty_of_origin ho, ← hty]
      unfold Func.yieldTy
      simp only [hr, Option.map_some, Option.getD_some]
      rw [Func.tyOf_eq (f := { f with flow := g }) ho]
    · rw [h.origin_result_iff.1 ho] at ho'
      cases ho'
  · intro E s₀ hfE h₀
    rw [h.result?] at hr
    refine ⟨fun _ _ _ _ ty' j hj => absurd hj hconst, fun {s d} hs hav hd => ?_⟩
    obtain ⟨r', d', hr', hd', hg⟩ := h.gives hfE h₀ hs hi hpure ((hf.coherent.avail_iff hr).1 hav)
    rw [hr] at hr'
    cases hr'
    rw [Frame.read_result (f := { f with flow := g }) ho, hd'] at hd
    cases hd
    rw [hw s d hg]
    exact Frame.read_const hv

end Func

namespace ValueNumbering

theorem Expr.of_unary {g : DataFlow} {i : InstId} {op : Opcode} {x : ValueId} {e : Expr}
    (hi : g.inst? i = some (.unary op x)) :
    Expr.of g i = .ok e ↔ ∃ r ty, g.result? i = some r ∧ g.ty r = .ok ty ∧ e = .unary op x ty := by
  unfold Expr.of
  rw [DataFlow.inst_eq_ok.2 hi, ok_bind]
  constructor
  · intro h
    obtain ⟨r, hr, h⟩ := bind_eq_ok.1 h
    obtain ⟨ty, hty, h⟩ := bind_eq_ok.1 h
    exact ⟨r, ty, DataFlow.result_eq_ok.1 hr, hty, (Except.ok.inj h).symm⟩
  · rintro ⟨r, ty, hr, hty, rfl⟩
    simp only [DataFlow.result_eq_ok.2 hr, ok_bind, hty, pure_eq_ok]

theorem Expr.of_binary {g : DataFlow} {i : InstId} {op : Opcode} {x y : ValueId} {e : Expr}
    (hi : g.inst? i = some (.binary op x y)) :
    Expr.of g i = .ok e ↔ e = if op.isCommutative && y.index < x.index then .binary op y x else
      .binary op x y := by
  unfold Expr.of
  rw [DataFlow.inst_eq_ok.2 hi, ok_bind]
  exact ⟨fun h => (Except.ok.inj h).symm, fun h => by rw [h]; rfl⟩

theorem Expr.binary_cases {op : Opcode} {x y : ValueId} {e : Expr}
    (h : e = if op.isCommutative && y.index < x.index then .binary op y x else .binary op x y) :
    e = .binary op x y ∨ (op.isCommutative = true ∧ e = .binary op y x) := by
  by_cases hs : (op.isCommutative && decide (y.index < x.index)) = true
  · rw [if_pos hs] at h
    exact .inr ⟨(Bool.and_eq_true_iff.1 hs).1, h⟩
  · rw [if_neg hs] at h
    exact .inl h

theorem Expr.resultWidth?_eq {f : Func} {i : InstId} {r : ValueId} {ty : Ty}
    (hr : f.flow.result? i = some r) (hty : f.flow.ty r = .ok ty) :
    Frame.resultWidth? f i = ty.width.toOption := by
  obtain ⟨o, ho, rfl⟩ := DataFlow.ty_eq_ok.1 hty
  unfold Frame.resultWidth?
  rw [hr, Option.bind_some, ho]

/-- Instructions that stand for one expression yield the same in one frame. -/
theorem Expr.gives_eq {f : Func} {s : Frame} {i j : InstId} {inst jnst : Inst} {e : Expr}
    {d d' : Datum} (hi : f.flow.inst? i = some inst) (hj : f.flow.inst? j = some jnst)
    (hpi : inst.op.isPure = true) (hpj : jnst.op.isPure = true) (hei : Expr.of f.flow i = .ok e)
    (hej : Expr.of f.flow j = .ok e) (hgi : Frame.Gives f s i inst d)
    (hgj : Frame.Gives f s j jnst d') : d = d' := by
  cases hgi with
  | alloca => cases hpi
  | load => cases hpi
  | @unary op x a d hl hret hx hd =>
    obtain ⟨r, ty, hr, hty, rfl⟩ := (Expr.of_unary hi).1 hei
    cases hgj with
    | alloca => cases hpj
    | load => cases hpj
    | @unary op' x' a' d' _ _ hx' hd' =>
      obtain ⟨r', ty', hr', hty', he⟩ := (Expr.of_unary hj).1 hej
      cases he
      rw [hx] at hx'
      cases hx'
      have hw : Frame.resultWidth? f j = Frame.resultWidth? f i := by
        rw [Expr.resultWidth?_eq hr hty, Expr.resultWidth?_eq hr' hty']
      rw [Frame.compute_congr hw hd] at hd'
      cases hd'
      rfl
    | @binary op' x' y' a' b' d' _ _ _ _ _ =>
      rcases Expr.binary_cases ((Expr.of_binary hj).1 hej) with he | ⟨-, he⟩ <;> cases he
  | @binary op x y a b d hs hc hx hy hd =>
    have hec := Expr.binary_cases ((Expr.of_binary hi).1 hei)
    cases hgj with
    | alloca => cases hpj
    | load => cases hpj
    | @unary op' x' a' d' _ _ hx' hd' =>
      obtain ⟨r', ty', hr', hty', he'⟩ := (Expr.of_unary hj).1 hej
      rcases hec with he | ⟨-, he⟩ <;> (rw [he'] at he; cases he)
    | @binary op' x' y' a' b' d' _ _ hx' hy' hd' =>
      have hec' := Expr.binary_cases ((Expr.of_binary hj).1 hej)
      have hcases : op' = op ∧
          ((x' = x ∧ y' = y) ∨ (op.isCommutative = true ∧ x' = y ∧ y' = x)) := by
        rcases hec with he | ⟨hcomm, he⟩ <;> rcases hec' with he' | ⟨hcomm', he'⟩ <;>
          (rw [he'] at he; cases he)
        · exact ⟨rfl, .inl ⟨rfl, rfl⟩⟩
        · exact ⟨rfl, .inr ⟨hcomm', rfl, rfl⟩⟩
        · exact ⟨rfl, .inr ⟨hcomm, rfl, rfl⟩⟩
        · exact ⟨rfl, .inl ⟨rfl, rfl⟩⟩
      obtain ⟨rfl, ⟨rfl, rfl⟩ | ⟨hcomm, rfl, rfl⟩⟩ := hcases
      · rw [hx] at hx'
        rw [hy] at hy'
        cases hx'
        cases hy'
        rw [Frame.compute_pair hd] at hd'
        cases hd'
        rfl
      · rw [hy] at hx'
        rw [hx] at hy'
        cases hx'
        cases hy'
        rw [Frame.compute_pair (Frame.compute_comm hcomm hd)] at hd'
        cases hd'
        rfl

/-- The operands of an expression decide the type of its result. -/
theorem Expr.yieldTy_eq {f : Func} (hty : f.Typed) {i j : InstId} {inst jnst : Inst} {e : Expr}
    {r v : ValueId} (hi : f.flow.inst? i = some inst) (hj : f.flow.inst? j = some jnst)
    (hpi : inst.op.isPure = true) (hpj : jnst.op.isPure = true) (hei : Expr.of f.flow i = .ok e)
    (hej : Expr.of f.flow j = .ok e) (hr : f.flow.result? i = some r)
    (hv : f.flow.result? j = some v) : f.tyOf r = f.tyOf v := by
  have hri := hty hi
  have hrj := hty hj
  have hyi : f.yieldTy i = f.tyOf r := by
    unfold Func.yieldTy
    rw [hr]
    rfl
  have hyj : f.yieldTy j = f.tyOf v := by
    unfold Func.yieldTy
    rw [hv]
    rfl
  cases inst with
  | unary op x =>
    obtain ⟨r', ty, hr', hty', rfl⟩ := (Expr.of_unary hi).1 hei
    rw [hr] at hr'
    cases hr'
    cases jnst with
    | unary op' x' =>
      obtain ⟨v', ty', hv', htyv, he⟩ := (Expr.of_unary hj).1 hej
      rw [hv] at hv'
      cases hv'
      cases he
      obtain ⟨o, ho, rfl⟩ := DataFlow.ty_eq_ok.1 hty'
      obtain ⟨o', ho', he⟩ := DataFlow.ty_eq_ok.1 htyv
      rw [Func.tyOf_eq ho, Func.tyOf_eq ho', he]
    | binary op' x' y' =>
      rcases Expr.binary_cases ((Expr.of_binary hj).1 hej) with he | ⟨-, he⟩ <;> cases he
    | _ =>
      unfold Expr.of at hej
      rw [DataFlow.inst_eq_ok.2 hj, ok_bind] at hej
      cases hej
  | binary op x y =>
    have hec := Expr.binary_cases ((Expr.of_binary hi).1 hei)
    cases jnst with
    | unary op' x' =>
      obtain ⟨v', ty', hv', htyv, he'⟩ := (Expr.of_unary hj).1 hej
      rcases hec with he | ⟨-, he⟩ <;> (rw [he'] at he; cases he)
    | binary op' x' y' =>
      have hs : op ≠ .store := by rintro rfl; cases hpi
      have hc : op ≠ .copy := by rintro rfl; cases hpi
      have hs' : op' ≠ .store := by rintro rfl; cases hpj
      have hc' : op' ≠ .copy := by rintro rfl; cases hpj
      simp only [Func.Rule, if_neg hs, if_neg hc, hyi] at hri
      simp only [Func.Rule, if_neg hs', if_neg hc', hyj] at hrj
      have hec' := Expr.binary_cases ((Expr.of_binary hj).1 hej)
      have hops : op' = op ∧ (x' = x ∨ x' = y) := by
        rcases hec with he | ⟨-, he⟩ <;> rcases hec' with he' | ⟨-, he'⟩ <;>
          (rw [he'] at he; cases he)
        · exact ⟨rfl, .inl rfl⟩
        · exact ⟨rfl, .inr rfl⟩
        · exact ⟨rfl, .inr rfl⟩
        · exact ⟨rfl, .inl rfl⟩
      obtain ⟨rfl, hx'⟩ := hops
      by_cases hcmp : op'.isCompare = true
      · rw [if_pos hcmp] at hri hrj
        rw [hri.2, hrj.2]
      · rw [if_neg hcmp] at hri hrj
        rcases hx' with rfl | rfl
        · rw [← hri.2.1, hrj.2.1]
        · rw [← hri.2.2, hrj.2.1]
    | _ =>
      unfold Expr.of at hej
      rw [DataFlow.inst_eq_ok.2 hj, ok_bind] at hej
      cases hej
  | _ =>
    unfold Expr.of at hei
    rw [DataFlow.inst_eq_ok.2 hi, ok_bind] at hei
    cases hei

end ValueNumbering

theorem Func.Coherent.not_stranded {f : Func} (hf : f.Coherent) {entry home : BlockId}
    {xs : List InstId} {i : InstId} {r : ValueId} (hhome : f.insts home = .ok xs) (hi : i ∈ xs)
    (hr : f.flow.result? i = some r) (hcon : Connects f.Leads entry home) :
    ¬ f.Stranded entry r := by
  rintro ⟨ty, j, home', ys, ho, hys, hj, hn⟩
  obtain rfl := hf.flow.definer_eq hr ho
  rw [hf.layout.one_block hys hhome hj hi] at hn
  exact hn hcon

theorem Func.Coherent.fits_result {f : Func} (hf : f.Coherent) {entry home : BlockId} {g : DataFlow}
    {xs : List InstId} {i : InstId} {r v : ValueId} (hhome : f.insts home = .ok xs) (hi : i ∈ xs)
    (hcon : Connects f.Leads entry home) (hr : f.flow.result? i = some r)
    (htyp : ∃ ty, g.ty r = .ok ty ∧ g.ty v = .ok ty)
    (hold : ¬ f.Stranded entry v → f.Older f.Leads entry r v) : f.Fits entry g r v := by
  refine ⟨htyp, fun b rest hspot hthere => ?_, fun ty ho => ?_⟩
  · by_cases hlost : f.Stranded entry v
    · exact .inr hlost
    · exact .inl (hold hlost hspot (hthere.resolve_right (hf.not_stranded hhome hi hr hcon)))
  · obtain ⟨ty', ho', -⟩ := hf.flow.result_origin hr
    rw [ho'] at ho
    cases ho

namespace Func.Reworded

variable {f : Func} {entry : BlockId} {R : ValueId → ValueId → Prop} {g : DataFlow} {i j : InstId}
  {r v : ValueId} {home : BlockId} {pre post xs : List InstId}

theorem typed_of_tyOf {o o' : ValueDef} (hr : g.origin? r = some o)
    (hv : g.origin? v = some o')
    (he : ({ f with flow := g } : Func).tyOf r = ({ f with flow := g } : Func).tyOf v) :
    ∃ ty, g.ty r = .ok ty ∧ g.ty v = .ok ty := by
  rw [Func.tyOf_eq (f := { f with flow := g }) hr,
    Func.tyOf_eq (f := { f with flow := g }) hv] at he
  refine ⟨o.ty, DataFlow.ty_of_origin hr, ?_⟩
  rw [he]
  exact DataFlow.ty_of_origin hv

theorem incoming (h : f.Reworded R g) {x : ValueId} {p : BlockId}
    (hx : f.flow.incoming? i p = .ok (some x)) :
    ∃ inst x', g.inst? i = some inst ∧ (x', p) ∈ inst.edges ∧ R x x' := by
  have hin : ∃ inst, f.flow.inst? i = some inst := by
    unfold DataFlow.incoming? at hx
    obtain ⟨inst, hi, -⟩ := bind_eq_ok.1 hx
    exact ⟨inst, DataFlow.inst_eq_ok.1 hi⟩
  obtain ⟨inst, hi⟩ := hin
  obtain ⟨inst', hi', hm⟩ := h.inst_ok hi
  obtain ⟨x', hx', he⟩ := hm.incoming hi hi' hx
  exact ⟨inst', x', hi', DataFlow.edge_of_incoming? hi' hx', he⟩

theorem tyOf_edge (hty : ({ f with flow := g } : Func).Typed) {inst : Inst}
    (hi : g.inst? i = some inst) (hr : g.result? i = some r) {x : ValueId} {p : BlockId}
    (hx : (x, p) ∈ inst.edges) :
    ({ f with flow := g } : Func).tyOf x = ({ f with flow := g } : Func).tyOf r := by
  have hrule := hty hi
  have hyield : ({ f with flow := g } : Func).yieldTy i = ({ f with flow := g } : Func).tyOf r := by
    unfold Func.yieldTy
    simp only [hr, Option.map_some, Option.getD_some]
  cases inst with
  | phi op args preds =>
    rw [← hyield]
    exact hrule x (List.of_mem_zip hx).1
  | _ => cases hx

theorem fits_of_single (h : f.Reworded (f.Fits entry g) g) (hf : f.Formed entry) (hty : f.Typed)
    (hd : f.Dominated entry) {inst : Inst} (hhome : f.insts home = .ok xs)
    (hphi : i ∈ xs.takeWhile f.flow.isPhi) (hreach : Connects f.Leads entry home)
    (hi : g.inst? i = some inst) (hr : g.result? i = some r) {a : ValueId} {c : BlockId}
    (ha : (a, c) ∈ inst.edges) (hav : f.Fits entry g a v)
    (hin : ∀ {x p}, (x, p) ∈ inst.edges → Connects f.Leads entry p → ∃ y, f.Fits entry g x y ∧
      (y = v ∨ y = r)) :
    f.Fits entry g r v := by
  obtain ⟨ty, ho, -⟩ := h.exact.result_origin hr
  obtain ⟨o, hov⟩ := hav.known
  have hr' : f.flow.result? i = some r := by rw [← h.result?, hr]
  have hmem : i ∈ xs := (List.takeWhile_prefix _).subset hphi
  refine hf.coherent.fits_result hhome hmem hreach hr' (typed_of_tyOf (f := f) ho hov ?_)
    fun hlost => ?_
  · rw [hav.tyOf_eq, tyOf_edge (h.types hf hty) hi hr ha]
  · refine hf.older_of_single hhome hphi hr' fun {p} hp hE => ?_
    obtain ⟨x, inst₀, hinst₀, hx, hedge, hop⟩ := hf.incoming hhome hphi hE
    obtain ⟨inst', x', hi', hedge', hfits⟩ := h.incoming hx
    rw [hi] at hi'
    cases hi'
    obtain ⟨y, hxy, hy⟩ := hin hedge' hp
    have hthere := (hfits.trans hxy).there (hf.spot_end hp)
      (hd.phis hreach hhome hmem hinst₀ hop hedge hp)
    rcases hy with rfl | rfl
    · exact .inl (hthere.resolve_right hlost)
    · exact .inr (hthere.resolve_right (hf.coherent.not_stranded hhome hmem hr' hreach))

end Func.Reworded

namespace Func.Restated

variable {f : Func} {entry : BlockId} {g : DataFlow} {i j : InstId} {r v : ValueId} {home : BlockId}
  {pre post : List InstId}

/-- Instructions for one expression have equal results, if one comes before the other on every
way. -/
theorem of_expr (h : f.Restated entry g) (hf : f.Regular entry) (hty : f.Typed) {inst jnst : Inst}
    {e : ValueNumbering.Expr} (hhome : f.insts home = .ok (pre ++ i :: post))
    (hi : g.inst? i = some inst) (hj : g.inst? j = some jnst) (hpi : inst.op.isPure = true)
    (hpj : jnst.op.isPure = true) (hei : ValueNumbering.Expr.of g i = .ok e)
    (hej : ValueNumbering.Expr.of g j = .ok e) (hr : g.result? i = some r)
    (hv : g.result? j = some v) (hbehind : f.Behind f.Leads entry home (i :: post) j) :
    f.Equal entry g r v := by
  obtain ⟨ty, ho, -⟩ := h.exact.result_origin hr
  obtain ⟨ty', ho', -⟩ := h.exact.result_origin hv
  have hmem : i ∈ pre ++ i :: post := List.mem_append_right _ List.mem_cons_self
  have hr₀ : f.flow.result? i = some r := by rw [← h.result?, hr]
  have hv₀ : f.flow.result? j = some v := by rw [← h.result?, hv]
  constructor
  · have hreach : Connects f.Leads entry home := by
      obtain ⟨jhome, ys, hys, hjy, hg, -⟩ := hbehind
      exact hg.1
    refine hf.coherent.fits_result hhome hmem hreach hr₀ (Reworded.typed_of_tyOf ho ho'
      (ValueNumbering.Expr.yieldTy_eq (h.types hf hty) hi hj hpi hpj hei hej hr hv))
      fun _ b rest hspot hav => ?_
    obtain ⟨pre', hpre'⟩ := hspot.suffix
    exact (hf.coherent.avail_iff hv₀).2
      (hf.behind_trans hhome hbehind hpre' ((hf.coherent.avail_iff hr₀).1 hav))
  · intro E s₀ hfE h₀
    have hof := h.origin_result_iff.1 ho
    rw [h.result?] at hr hv
    by_cases hcon : Connects E entry home
    · have hbE : f.Behind E entry home (i :: post) j := by
        obtain ⟨jhome, ys, hys, hjy, hg, hout⟩ := hbehind
        exact ⟨jhome, ys, hys, hjy, ⟨hcon, fun p hp => hg.2 p (hp.mono hfE.edges)⟩, hout⟩
      have hold : ∀ {b rest}, f.Spot E entry b rest → f.Behind E entry b rest i →
          f.Behind E entry b rest j := by
        intro b rest hspot hb
        obtain ⟨pre', hpre'⟩ := hspot.suffix
        exact hf.behind_trans hhome hbE hpre' hb
      refine ⟨fun b rest hspot hav => ?_, fun {s d} hs hav hd => ?_⟩
      · exact (hf.coherent.avail_iff hv).2 (hold hspot ((hf.coherent.avail_iff hr).1 hav))
      · have hib := (hf.coherent.avail_iff hr).1 hav
        have hjb := hold (hfE.sits_reached (hfE.sits_atStart h₀) hs).spot hib
        obtain ⟨r', d₁, hr', hd₁, hg₁⟩ := h.gives hfE h₀ hs hi hpi hib
        obtain ⟨v', d₂, hv', hd₂, hg₂⟩ := h.gives hfE h₀ hs hj hpj hjb
        rw [hr] at hr'
        rw [hv] at hv'
        cases hr'
        cases hv'
        rw [Frame.read_result (f := { f with flow := g }) ho, hd₁] at hd
        cases hd
        rw [Frame.read_result (f := { f with flow := g }) ho', hd₂]
        have := ValueNumbering.Expr.gives_eq (f := { f with flow := g }) hi hj hpi hpj
          hei hej hg₁ hg₂
        rw [this]
    · exact .of_unreached hfE hof hhome hmem hcon v

theorem of_single (h : f.Restated entry g) (hf : f.Regular entry) (hty : f.Typed)
    (hd : f.Dominated entry) {xs : List InstId} {inst : Inst} (hhome : f.insts home = .ok xs)
    (hphi : i ∈ xs.takeWhile f.flow.isPhi) (hreach : Connects f.Leads entry home)
    (hi : g.inst? i = some inst) (hr : g.result? i = some r) {a : ValueId} {c : BlockId}
    (ha : (a, c) ∈ inst.edges) (hav : f.Equal entry g a v)
    (hin : ∀ {x p}, (x, p) ∈ inst.edges → Connects f.Leads entry p →
      ∃ y, f.Equal entry g x y ∧ (y = v ∨ y = r)) : f.Equal entry g r v := by
  constructor
  · refine h.fits.fits_of_single hf.toFormed hty hd hhome hphi hreach hi hr ha hav.toFits
      fun hx hp => ?_
    obtain ⟨y, hxy, hy⟩ := hin hx hp
    exact ⟨y, hxy.toFits, hy⟩
  · intro E s₀ hfE h₀
    rw [h.result?] at hr
    refine Same.of_single hfE h₀ h.origin? hhome hphi hr fun {p x} hcon hE hx => ?_
    obtain ⟨inst', x', hi', hedge, he⟩ := h.incoming hx
    rw [hi] at hi'
    cases hi'
    have hp : Connects f.Leads entry p := by
      obtain ⟨w, hw⟩ := hcon
      exact ⟨w, hw.mono hfE.edges⟩
    obtain ⟨y, hxy, hy⟩ := hin hedge hp
    exact ⟨y, (he.trans hxy).same hfE h₀, hy⟩

/-- Phis of a block that merge equal values are equal. -/
theorem of_twins (h : f.Restated entry g) (hf : f.Regular entry) (hty : f.Typed) {inst jnst : Inst}
    (hhome : f.insts home = .ok (pre ++ i :: post)) (hj : j ∈ pre)
    (hphi : i ∈ (pre ++ i :: post).takeWhile f.flow.isPhi)
    (hphi' : j ∈ (pre ++ i :: post).takeWhile f.flow.isPhi) (hi : g.inst? i = some inst)
    (hjnst : g.inst? j = some jnst) (hr : g.result? i = some r) (hv : g.result? j = some v)
    (hreach : Connects f.Leads entry home)
    (hin : ∀ {x y p}, (x, p) ∈ inst.edges → (y, p) ∈ jnst.edges → Connects f.Leads entry p →
      ∃ z, f.Equal entry g x z ∧ f.Equal entry g y z) : f.Equal entry g r v := by
  obtain ⟨ty, ho, -⟩ := h.exact.result_origin hr
  obtain ⟨ty', ho', -⟩ := h.exact.result_origin hv
  have htyp : ({ f with flow := g } : Func).tyOf r = ({ f with flow := g } : Func).tyOf v := by
    -- Some edge leads to the block from a block that can be reached, and what it brings has the
    -- type of both.
    obtain ⟨w, hw⟩ := hreach
    rcases hw.last_step with ⟨rfl, -⟩ | ⟨p, q, hq, hp, -⟩
    · have hbare := hf.bare hhome i (List.mem_append_right _ List.mem_cons_self)
      rw [List.all_eq_true.1 List.all_takeWhile i hphi] at hbare
      cases hbare
    · obtain ⟨x, _, -, hx, -, -⟩ := hf.incoming hhome hphi hp
      obtain ⟨y, _, -, hy, -, -⟩ := hf.incoming hhome hphi' hp
      obtain ⟨inst', x', hi', hedge, -⟩ := h.incoming hx
      obtain ⟨jnst', y', hj', hedge', -⟩ := h.incoming hy
      rw [hi] at hi'
      rw [hjnst] at hj'
      cases hi'
      cases hj'
      obtain ⟨z, hxz, hyz⟩ := hin hedge hedge' ⟨q, hq⟩
      rw [← Reworded.tyOf_edge (h.types hf hty) hi hr hedge,
        ← Reworded.tyOf_edge (h.types hf hty) hjnst hv hedge', ← hxz.tyOf_eq, ← hyz.tyOf_eq]
  rw [h.result?] at hr hv
  refine ⟨hf.coherent.fits_result hhome (List.mem_append_right _ List.mem_cons_self) hreach hr
    (Reworded.typed_of_tyOf ho ho' htyp) fun _ => hf.older_of_before hhome hj hr hv,
    fun {E s₀} hfE h₀ => ?_⟩
  refine Same.of_twins hfE h₀ h.origin? hhome hj hphi hphi' hr hv fun {p x y} hcon hE hx hy => ?_
  obtain ⟨inst', x', hi', hedge, he⟩ := h.incoming hx
  obtain ⟨jnst', y', hj', hedge', he'⟩ := h.incoming hy
  rw [hi] at hi'
  rw [hjnst] at hj'
  cases hi'
  cases hj'
  have hp : Connects f.Leads entry p := by
    obtain ⟨w, hw⟩ := hcon
    exact ⟨w, hw.mono hfE.edges⟩
  obtain ⟨z, hxz, hyz⟩ := hin hedge hedge' hp
  exact ⟨z, (he.trans hxz).same hfE h₀, (he'.trans hyz).same hfE h₀⟩

end Func.Restated

end MiddleEnd
