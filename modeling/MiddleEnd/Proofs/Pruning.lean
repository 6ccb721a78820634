import MiddleEnd.Proofs.EdgeEdits
import MiddleEnd.Proofs.Restatement
import MiddleEnd.Proofs.Simulation

/-!
# Pruning of control flow

A function loses blocks that control does not come to and edges that control does not take: branches
that always go one way become jumps, phis forget the edges that are gone. With fewer edges
everything that was defined before it is used still is, and a run that returns went along the edges
that are left.
-/

namespace MiddleEnd

theorem Opcode.not_phi_of_terminator {op : Opcode} (h : op.isTerminator = true) :
    op.isPhi = false := by
  revert h
  cases op <;> decide

namespace Func

/-- A verified function whose entry is led to from nowhere and whose phis yield values. -/
structure Rooted (f : Func) (entry : BlockId) : Prop extends f.Formed entry where
  typed : f.Typed
  dominated : f.Dominated entry
  source : ∀ a, ¬ f.Leads a entry
  phis : ∀ {b xs i}, Connects f.Leads entry b → f.insts b = .ok xs → i ∈ xs →
    f.flow.isPhi i = true →
    ∃ r, f.flow.result? i = some r

/-- What simplification of control flow starts from and leaves: a rooted function whose terminators
yield nothing. -/
structure Neat (f : Func) (entry : BlockId) : Prop extends f.Rooted entry where
  last : ∀ {i}, f.flow.isTerminator i = true → f.flow.result? i = none

/-- A neat function without copies is one whose runs can be followed. -/
structure Tidy (f : Func) (entry : BlockId) : Prop extends f.Neat entry where
  noCopies : ∀ {i x y}, f.flow.inst? i ≠ some (.binary .copy x y)

theorem Tidy.regular {f : Func} {entry : BlockId} (h : f.Tidy entry) : f.Regular entry :=
  ⟨h.toFormed, h.noCopies⟩

theorem Neat.not_terminator {f : Func} {entry : BlockId} (h : f.Neat entry)
    {i : InstId} {v : ValueId} (hi : f.flow.result? i = some v) :
    f.flow.isTerminator i = false := by
  cases ht : f.flow.isTerminator i with
  | false => rfl
  | true =>
    rw [h.last ht] at hi
    cases hi

theorem Rooted.valid {f : Func} {entry : BlockId} (h : f.Rooted entry) : f.Valid entry :=
  ⟨h.starts, h.shape, fun hi => ⟨h.forms hi, h.typed hi⟩, h.dominated⟩

theorem Rooted.verified {f : Func} {entry : BlockId} (h : f.Rooted entry) : f.errors = .ok [] :=
  (errors_eq_nil_iff h.coherent).2 ⟨entry, h.valid⟩

theorem Formed.rooted {f : Func} {entry : BlockId} (hf : f.Formed entry) (h : f.Valid entry)
    (hsource : f.predecessors entry = [])
    (hphis : ∀ c phis, f.Reachable c → f.phis c = .ok phis →
      ∀ i ∈ phis, ∃ r, f.flow.result? i = some r) :
    f.Rooted entry := by
  refine ⟨hf, fun hi => (h.types hi).2, h.dominated, fun a hl => ?_, h.phi_yields hphis⟩
  have := (Func.mem_predecessors hf.coherent h.shape.ended).2 hl
  rw [hsource] at this
  cases this

theorem Formed.neat {f : Func} {entry : BlockId} (hf : f.Formed entry) (h : f.Valid entry)
    (hsource : f.predecessors entry = [])
    (hphis : ∀ c phis, f.Reachable c → f.phis c = .ok phis →
      ∀ i ∈ phis, ∃ r, f.flow.result? i = some r)
    (hlast : ∀ i, f.flow.isTerminator i = true → f.flow.result? i = none) : f.Neat entry :=
  ⟨hf.rooted h hsource hphis, fun hi => hlast _ hi⟩

theorem Clean.tidy {f : Func} {entry : BlockId} (h : f.Clean entry)
    (hsource : f.predecessors entry = [])
    (hphis : ∀ c phis, f.Reachable c → f.phis c = .ok phis →
      ∀ i ∈ phis, ∃ r, f.flow.result? i = some r)
    (hlast : ∀ i, f.flow.isTerminator i = true → f.flow.result? i = none) : f.Tidy entry :=
  ⟨h.regular.neat h.valid hsource hphis hlast, h.regular.noCopies⟩

theorem Neat.of_leads {f f' : Func} {entry : BlockId} (h : f.Neat entry)
    (hleads : f'.Leads = f.Leads) (hf : f'.Formed entry) (ht : f'.Typed) (hd : f'.Dominated entry)
    (hphi : ∀ {b xs' i}, f'.insts b = .ok xs' → i ∈ xs' → f'.flow.isPhi i = true →
      ∃ xs, f.insts b = .ok xs ∧ i ∈ xs ∧ f.flow.isPhi i = true)
    (hterm : ∀ {i}, f'.flow.isTerminator i = true → f.flow.isTerminator i = true)
    (hres : ∀ {i inst}, f'.flow.inst? i = some inst → f'.flow.result? i = f.flow.result? i) :
    f'.Neat entry where
  toFormed := hf
  typed := ht
  dominated := hd
  source a hl := h.source a (hleads ▸ hl)
  phis {b xs' i} hcon hxs' hi hisPhi := by
    obtain ⟨xs, hxs, hix, hisPhi⟩ := hphi hxs' hi hisPhi
    obtain ⟨inst, hinst⟩ := hf.coherent.inst_of_mem hxs' hi
    rw [hres hinst]
    exact h.phis (hleads ▸ hcon) hxs hix hisPhi
  last {i} hlast := by
    obtain ⟨inst, hinst⟩ := DataFlow.inst_of_isTerminator hlast
    rw [hres hinst]
    exact h.last (hterm hlast)

section Tidy

variable {f f' : Func} {entry : BlockId} {g : DataFlow} {ρ : InstId → Inst → Inst} {D : List InstId}

def Settles (f : Func) (g : DataFlow) (a v : ValueId) : Prop :=
  v = a ∨ ∃ w, g.origin? v = some (.const w) ∧ f.tyOf a = w.ty

/-- Operands of a tidy function may give way to constants of their types. -/
theorem Tidy.rewire (h : f.Tidy entry) (hg : g.Exact) (hR : DataFlow.Rewired f.flow g ρ)
    (hM : ∀ {i inst}, f.flow.inst? i = some inst → Inst.Matches (f.Settles g) inst (ρ i inst)) :
    ({ f with flow := g } : Func).Tidy entry := by
  have hop : ∀ {i inst}, f.flow.inst? i = some inst → (ρ i inst).op = inst.op :=
    fun hi => (hM hi).op_eq
  have hleads : ({ f with flow := g } : Func).Leads = f.Leads := by
    funext a b
    exact propext (leads_rewire hR hop fun hi => (hM hi).blocks_eq)
  have htyOf : ∀ {v o}, f.flow.origin? v = some o → ({ f with flow := g } : Func).tyOf v =
      f.tyOf v := by
    intro v o ho
    rw [Func.tyOf_eq ho]
    exact Func.tyOf_eq (hR.origin? ho)
  have hyieldTy : ∀ i, ({ f with flow := g } : Func).yieldTy i = f.yieldTy i := fun i =>
    yieldTy_congr h.coherent.flow (hR.result? i) fun _ ho => hR.origin? ho
  -- A constant is there at all times; any other operand is the one that was there before.
  have havail : ∀ {b rest a v}, f.Settles g a v → f.Avail f.Leads entry b rest a ∨
      f.Stranded entry a →
      ({ f with flow := g } : Func).Avail f.Leads entry b rest v ∨
      ({ f with flow := g } : Func).Stranded entry v := by
    rintro b rest a v (rfl | ⟨w, hw, -⟩) hav
    · exact hav.imp (avail_rewire hR).2 (stranded_rewire hR hleads)
    · apply Or.inl
      intro ty i ho
      cases hw.symm.trans ho
  have hregular := h.regular.rewire hg hR hM
  refine ⟨h.of_leads hleads hregular.toFormed ?_ ⟨?_, ?_⟩ ?_ ?_ ?_, hregular.noCopies⟩
  · intro i inst' hi
    obtain ⟨inst, hinst, rfl⟩ := hR.exists_inst hi
    rw [hyieldTy]
    refine (hM hinst).rule (f := f) ?_ rfl hR.imports (fun hop =>
      absurd hop (h.regular.op_ne_copy hinst)) (h.typed hinst)
    rintro a v ha (rfl | ⟨w, hw, hty⟩)
    · obtain ⟨o, ho⟩ := h.coherent.flow.operand hinst ha
      exact htyOf ho
    · rw [hty]
      exact Func.tyOf_eq (f := { f with flow := g }) hw
  · intro b pre u post inst' v hcon hb hu hphi hv
    obtain ⟨inst, hinst, rfl⟩ := hR.exists_inst hu
    obtain ⟨a, ha, hav⟩ := (hM hinst).arg_of_mem hv
    rw [hleads] at hcon ⊢
    rw [hop hinst] at hphi
    exact havail hav (h.dominated.body hcon hb hinst hphi ha)
  · intro b xs u inst' v p hcon hb hx hu hphi he hp
    obtain ⟨inst, hinst, rfl⟩ := hR.exists_inst hu
    obtain ⟨a, ha, hav⟩ := (hM hinst).edge_of_mem he
    rw [hleads] at hcon hp ⊢
    rw [hop hinst] at hphi
    exact havail hav (h.dominated.phis hcon hb hx hinst hphi ha hp)
  · intro b xs i hxs hi hphi
    exact ⟨xs, hxs, hi, (hR.isPhi hop i).symm.trans hphi⟩
  · intro i hterm
    exact (hR.isTerminator hop i).symm.trans hterm
  · intro i inst _
    exact hR.result? i

theorem Neat.thin (h : f.Neat entry) (ht : f.Thinned f' D) (hd : f.Idle D) (hc : f'.Coherent) :
    f'.Neat entry := by
  have hleads := ht.leads_eq hd h.shape
  refine h.of_leads hleads (h.toFormed.thin ht hd hc) (ht.types hd h.coherent h.typed)
    (h.dominated.thin h.shape h.coherent ht hd hc) ?_ ?_ ?_
  · intro b xs' i hxs' hi hphi
    obtain ⟨xs, hxs, rfl⟩ := ht.insts_of hxs'
    obtain ⟨hix, hiD⟩ := List.mem_filter.1 hi
    exact ⟨xs, hxs, hix, (ht.isPhi (by simpa using hiD)).symm.trans hphi⟩
  · intro i hterm
    obtain ⟨inst, hinst⟩ := DataFlow.inst_of_isTerminator hterm
    exact (ht.isTerminator (ht.inst_of hinst).1).symm.trans hterm
  · intro i inst hinst
    rw [ht.result?, if_neg (ht.inst_of hinst).1]

theorem Tidy.thin (h : f.Tidy entry) (ht : f.Thinned f' D) (hd : f.Idle D) (hc : f'.Coherent) :
    f'.Tidy entry :=
  ⟨h.toNeat.thin ht hd hc, (h.regular.thin ht hd hc).noCopies⟩

end Tidy

def OneWay (f : Func) (inst : Inst) (taken : BlockId) : Prop :=
  ∀ s c, Frame.Goes f s inst c → c = taken

/-- What pruning makes of an instruction: a phi keeps some edges, and a branch may be a jump the way
that `way` allows. Operands may have been replaced. -/
inductive Recast (way : Inst → BlockId → Prop) (τ : ValueId → ValueId) (gate : BlockId → Bool)
    (inst : Inst) :
    Inst → Prop where
  | same : Recast way τ gate inst ((inst.keepEdges gate).mapArgs τ)
  | always {taken : BlockId} : inst.op.isTerminator = true → taken ∈ inst.blocks → way inst taken →
      Recast way τ gate inst (.jump .br taken)

/-- The second function is the first one with fewer blocks and edges. Phis of block `b` keep the
edges that `gate b` lets through, `σ` renames terminators, `τ` replaces the results of blocks that
are gone, and branches become jumps as `way` allows. -/
structure Pruned (f f' : Func) (entry : BlockId) (keep : BlockId → Prop) (σ : InstId → InstId)
    (τ : ValueId → ValueId) (gate : BlockId → BlockId → Bool) (way : Inst → BlockId → Prop) :
    Prop where
  coherent : f'.Coherent
  sig : f'.sig = f.sig
  params : f'.flow.params = f.flow.params
  imports : f'.flow.imports = f.flow.imports
  starts : f'.entry = .ok entry
  insts_iff : ∀ {b xs'}, f'.insts b = .ok xs' ↔ keep b ∧ ∃ xs, f.insts b = .ok xs ∧ xs' = xs.map σ
  still : ∀ {i}, f.flow.isTerminator i = false → σ i = i
  recast : ∀ {b xs i inst}, keep b → f.insts b = .ok xs → i ∈ xs → f.flow.inst? i = some inst →
    ∃ inst', f'.flow.inst? (σ i) = some inst' ∧ Recast way τ (gate b) inst inst'
  result? : ∀ {b xs i}, keep b → f.insts b = .ok xs → i ∈ xs →
    f'.flow.result? (σ i) = f.flow.result? i
  value : ∀ {v o}, f.flow.origin? v = some o → (τ v = v ∧ f'.flow.origin? v = some o) ∨
    ∃ ty i home xs, o = .result ty i ∧ f.insts home = .ok xs ∧ i ∈ xs ∧ ¬ keep home ∧
      f'.flow.origin? (τ v) = some (.undef ty)
  added : ∀ {v o}, f'.flow.origin? v = some o → f.flow.origin? v = some o ∨ o.isConst = true ∨
    o.isUndef = true
  gone : ∀ {b}, b ∈ f.blocks → ¬ keep b → ¬ Connects f.Leads entry b
  closed : ∀ {a b}, keep a → f.Leads a b → keep b
  gate_iff : ∀ {p b}, keep b → f.Leads p b → (gate b p = true ↔ f'.Leads p b)

variable {f f' : Func} {entry : BlockId} {keep : BlockId → Prop} {σ : InstId → InstId}
  {τ : ValueId → ValueId} {gate : BlockId → BlockId → Bool} {way : Inst → BlockId → Prop}

theorem Recast.isTerminator {g : BlockId → Bool} {inst inst' : Inst}
    (h : Recast way τ g inst inst') :
    inst'.op.isTerminator = inst.op.isTerminator := by
  cases h with
  | same => simp
  | always ht _ _ => exact ht.symm

theorem Recast.isPhi {g : BlockId → Bool} {inst inst' : Inst} (h : Recast way τ g inst inst') :
    inst'.op.isPhi = inst.op.isPhi := by
  cases h with
  | same => simp
  | always ht _ _ => exact (Opcode.not_phi_of_terminator ht).symm

theorem Recast.of_body {g : BlockId → Bool} {inst inst' : Inst} (h : Recast way τ g inst inst')
    (ht : inst.op.isTerminator = false) : inst' = (inst.keepEdges g).mapArgs τ := by
  cases h with
  | same => rfl
  | always ht' _ _ =>
    rw [ht] at ht'
    cases ht'

theorem keepEdges_of_not_phi {g : BlockId → Bool} {inst : Inst} (hf : Verify.formFits inst = true)
    (h : inst.op.isPhi = false) : inst.keepEdges g = inst := by
  cases inst with
  | phi op args preds =>
    have hop : op = .phi := by simpa [Verify.formFits] using hf
    rw [hop] at h
    cases h
  | _ => rfl

theorem Recast.blocks_subset {g : BlockId → Bool} {inst inst' : Inst}
    (h : Recast way τ g inst inst') (hf : Verify.formFits inst = true)
    (ht : inst.op.isTerminator = true) : ∀ b ∈ inst'.blocks, b ∈ inst.blocks := by
  cases h with
  | same =>
    rw [keepEdges_of_not_phi hf (Opcode.not_phi_of_terminator ht), Inst.blocks_mapArgs]
    exact fun _ hb => hb
  | always _ hb _ =>
    intro b hb'
    rw [List.mem_singleton.1 hb']
    exact hb

theorem blocks_eq_nil {inst : Inst} (hf : Verify.formFits inst = true)
    (hphi : inst.op.isPhi = false) (ht : inst.op.isTerminator = false) : inst.blocks = [] := by
  cases inst with
  | phi op args preds =>
    have hop : op = .phi := by simpa [Verify.formFits] using hf
    rw [hop] at hphi
    cases hphi
  | jump op b =>
    have hop : op = .br := by simpa [Verify.formFits] using hf
    rw [hop] at ht
    cases ht
  | branch op c t e =>
    have hop : op = .brCond := by simpa [Verify.formFits] using hf
    rw [hop] at ht
    cases ht
  | _ => rfl

theorem takeWhile_map_of {α β : Type} {p : α → Bool} {q : β → Bool} {g : α → β} {xs : List α}
    (h : ∀ x ∈ xs, q (g x) = p x) : (xs.map g).takeWhile q = (xs.takeWhile p).map g := by
  induction xs with
  | nil => rfl
  | cons x xs ih =>
    rw [List.map_cons, List.takeWhile_cons, List.takeWhile_cons, h x List.mem_cons_self]
    split
    · rw [ih fun y hy => h y (List.mem_cons_of_mem _ hy), List.map_cons]
    · rfl

theorem dropWhile_map_of {α β : Type} {p : α → Bool} {q : β → Bool} {g : α → β} {xs : List α}
    (h : ∀ x ∈ xs, q (g x) = p x) : (xs.map g).dropWhile q = (xs.dropWhile p).map g := by
  induction xs with
  | nil => rfl
  | cons x xs ih =>
    rw [List.map_cons, List.dropWhile_cons, List.dropWhile_cons, h x List.mem_cons_self]
    split
    · rw [ih fun y hy => h y (List.mem_cons_of_mem _ hy)]
    · rw [List.map_cons]

namespace Pruned

variable (h : f.Pruned f' entry keep σ τ gate way)

include h

theorem inst_of (hf : f.Coherent) {i' : InstId} {inst' : Inst}
    (hi : f'.flow.inst? i' = some inst') :
    ∃ b xs i inst, keep b ∧ f.insts b = .ok xs ∧ i ∈ xs ∧ i' = σ i ∧ f.flow.inst? i = some inst ∧
      Recast way τ (gate b) inst inst' := by
  obtain ⟨b, xs', hxs', hmem⟩ := h.coherent.home hi
  obtain ⟨hb, xs, hxs, rfl⟩ := h.insts_iff.1 hxs'
  obtain ⟨i, hix, rfl⟩ := List.mem_map.1 hmem
  obtain ⟨inst, hinst⟩ := hf.inst_of_mem hxs hix
  obtain ⟨inst'', hi'', hre⟩ := h.recast hb hxs hix hinst
  rw [hi] at hi''
  cases hi''
  exact ⟨b, xs, i, inst, hb, hxs, hix, rfl, hinst, hre⟩

theorem isTerminator (hf : f.Coherent) {b : BlockId} {xs : List InstId} {i : InstId} (hb : keep b)
    (hxs : f.insts b = .ok xs) (hi : i ∈ xs) :
    f'.flow.isTerminator (σ i) = f.flow.isTerminator i := by
  obtain ⟨inst, hinst⟩ := hf.inst_of_mem hxs hi
  obtain ⟨inst', hinst', hre⟩ := h.recast hb hxs hi hinst
  rw [DataFlow.isTerminator_of_inst hinst, DataFlow.isTerminator_of_inst hinst', hre.isTerminator]

theorem isPhi (hf : f.Coherent) {b : BlockId} {xs : List InstId} {i : InstId} (hb : keep b)
    (hxs : f.insts b = .ok xs) (hi : i ∈ xs) : f'.flow.isPhi (σ i) = f.flow.isPhi i := by
  obtain ⟨inst, hinst⟩ := hf.inst_of_mem hxs hi
  obtain ⟨inst', hinst', hre⟩ := h.recast hb hxs hi hinst
  rw [DataFlow.isPhi_of_inst hinst, DataFlow.isPhi_of_inst hinst', hre.isPhi]

theorem leads (hf : f.Formed entry) {a b : BlockId} (hl : f'.Leads a b) : keep a ∧ f.Leads a b := by
  obtain ⟨xs', t', inst', hxs', hlast, ht', hterm, hb⟩ := leads_iff.1 hl
  obtain ⟨ha, xs, hxs, rfl⟩ := h.insts_iff.1 hxs'
  rw [List.getLast?_map] at hlast
  obtain ⟨t, ht, rfl⟩ := Option.map_eq_some_iff.1 hlast
  have hmem := List.mem_of_getLast? ht
  obtain ⟨inst, hinst⟩ := hf.coherent.inst_of_mem hxs hmem
  obtain ⟨inst'', hi'', hre⟩ := h.recast ha hxs hmem hinst
  rw [ht'] at hi''
  cases hi''
  have hterm' := hre.isTerminator.symm.trans hterm
  exact ⟨ha, hf.shape.leads hxs hmem hinst hterm' (hre.blocks_subset (hf.forms hinst) hterm' b hb)⟩

theorem connects (hf : f.Formed entry) {b : BlockId} (hb : Connects f'.Leads entry b) :
    Connects f.Leads entry b := by
  obtain ⟨p, hp⟩ := hb
  exact ⟨p, hp.mono fun e => (h.leads hf e).2⟩

theorem keep_of_connects {b : BlockId} (hb : b ∈ f.blocks) (hc : Connects f.Leads entry b) :
    keep b :=
  Classical.byContradiction fun hn => h.gone hb hn hc

theorem map_of_plain {xs : List InstId} (hxs : ∀ i ∈ xs, f.flow.isTerminator i = false) :
    xs.map σ = xs :=
  (List.map_congr_left (g := id) fun i hi => h.still (hxs i hi)).trans (List.map_id xs)

theorem phi_edges (hf : f.Formed entry) {b : BlockId} {xs : List InstId} {i : InstId}
    {inst : Inst} (hb : keep b) (hxs : f.insts b = .ok xs) (hi : i ∈ xs)
    (hinst : f.flow.inst? i = some inst) (hop : inst.op.isPhi = true) :
    ((inst.keepEdges (gate b)).mapArgs τ).blocks.Nodup ∧
      ∀ p, p ∈ ((inst.keepEdges (gate b)).mapArgs τ).blocks ↔ f'.Leads p b := by
  have heven := hf.coherent.flow.even hinst
  obtain ⟨args, preds, hphi⟩ := Verify.phi_of_form (hf.forms hinst) hop
  obtain ⟨hn, hpreds⟩ := hf.shape.phi_edges hxs hi ((DataFlow.isPhi_of_inst hinst).trans hop) hinst
  rw [Inst.blocks_mapArgs]
  refine ⟨Inst.nodup_blocks_keepEdges heven hn, fun p => ?_⟩
  rw [Inst.mem_blocks_keepEdges heven ⟨_, args, preds, hphi⟩, hpreds]
  exact ⟨fun hp => (h.gate_iff hb hp.1).1 hp.2,
    fun hp => ⟨(h.leads hf hp).2, (h.gate_iff hb (h.leads hf hp).2).2 hp⟩⟩

theorem targets (hf : f.Formed entry) {i' : InstId} {inst' : Inst}
    (hi : f'.flow.inst? i' = some inst') :
    ∀ c ∈ inst'.blocks, c ∈ f'.blocks := by
  intro c hc
  obtain ⟨b, xs, i, inst, hb, hxs, hix, -, hinst, hre⟩ := h.inst_of hf.coherent hi
  cases ht : inst.op.isTerminator with
  | true =>
    have hl := hf.shape.leads hxs hix hinst ht (hre.blocks_subset (hf.forms hinst) ht c hc)
    obtain ⟨ys, hys⟩ :=
      Layout.mem_blocks_iff.1
        (hf.shape.targets hinst c (hre.blocks_subset (hf.forms hinst) ht c hc))
    exact Layout.mem_blocks_iff.2 ⟨_, h.insts_iff.2 ⟨h.closed hb hl, ys, hys, rfl⟩⟩
  | false =>
    rw [hre.of_body ht] at hc
    cases hop : inst.op.isPhi with
    | true => exact (((h.phi_edges hf hb hxs hix hinst hop).2 c).1 hc).mem_blocks
    | false =>
      rw [keepEdges_of_not_phi (hf.forms hinst) hop, Inst.blocks_mapArgs,
        blocks_eq_nil (hf.forms hinst) hop ht] at hc
      cases hc

theorem wellShaped (hf : f.Formed entry) : f'.WellShaped := by
  refine ⟨fun {b xs'} hxs' => ?_, h.targets hf⟩
  obtain ⟨hb, xs, hxs, rfl⟩ := h.insts_iff.1 hxs'
  obtain ⟨phis, body, last, rfl, hsh⟩ := hf.shape.shaped hxs
  have hphis : ∀ i ∈ phis, σ i = i := fun i hi => h.still (not_terminator_of_phi (hsh.isPhi i hi))
  have hbody : ∀ i ∈ body, σ i = i := fun i hi => h.still (hsh.plain i hi).2
  have hmem : ∀ {i}, i ∈ phis → i ∈ phis ++ (body ++ [last]) := fun hi => List.mem_append_left _ hi
  have hmem' : ∀ {i}, i ∈ body ++ [last] → i ∈ phis ++ (body ++ [last]) :=
    fun hi => List.mem_append_right _ hi
  refine ⟨phis, body, σ last, ?_, ?_, ?_, ?_, ?_⟩
  · rw [List.map_append, List.map_append, h.map_of_plain fun i hi =>
      not_terminator_of_phi (hsh.isPhi i hi), h.map_of_plain fun i hi => (hsh.plain i hi).2]
    rfl
  · intro i hi
    rw [← hphis i hi, h.isPhi hf.coherent hb hxs (hmem hi)]
    exact hsh.isPhi i hi
  · intro i hi
    have hi' := hmem' (List.mem_append_left _ hi)
    rw [← hbody i hi, h.isPhi hf.coherent hb hxs hi', h.isTerminator hf.coherent hb hxs hi']
    exact hsh.plain i hi
  · rw [h.isTerminator hf.coherent hb hxs (hmem' (List.mem_append_right _ List.mem_cons_self))]
    exact hsh.isTerminator
  · intro i inst' hi hinst'
    obtain ⟨inst, hinst⟩ := hf.coherent.inst_of_mem hxs (hmem hi)
    obtain ⟨inst'', hi'', hre⟩ := h.recast hb hxs (hmem hi) hinst
    rw [hphis i hi, hinst'] at hi''
    cases hi''
    have hop : inst.op.isPhi = true := (DataFlow.isPhi_of_inst hinst).symm.trans (hsh.isPhi i hi)
    have ht : inst.op.isTerminator = false :=
      (DataFlow.isTerminator_of_inst hinst).symm.trans (not_terminator_of_phi (hsh.isPhi i hi))
    rw [hre.of_body ht]
    exact h.phi_edges hf hb hxs (hmem hi) hinst hop

theorem forms (hf : f.Formed entry) {i' : InstId} {inst' : Inst}
    (hi : f'.flow.inst? i' = some inst') :
    Verify.formFits inst' = true := by
  obtain ⟨b, xs, i, inst, -, -, -, -, hinst, hre⟩ := h.inst_of hf.coherent hi
  have hform := hf.forms hinst
  cases hre with
  | same => cases inst <;> exact hform
  | always _ _ _ => rfl

theorem formed (hf : f.Formed entry) : f'.Formed entry := by
  refine ⟨h.coherent, h.starts, h.wellShaped hf, h.forms hf, fun {xs'} hxs' i' hi' => ?_⟩
  obtain ⟨hb, xs, hxs, rfl⟩ := h.insts_iff.1 hxs'
  obtain ⟨i, hi, rfl⟩ := List.mem_map.1 hi'
  rw [h.isPhi hf.coherent hb hxs hi]
  exact hf.bare hxs i hi

theorem regular (hf : f.Regular entry) : f'.Regular entry := by
  refine ⟨h.formed hf.toFormed, fun {i' x y} hi' => ?_⟩
  obtain ⟨b, xs, i, inst, -, -, -, -, hinst, hre⟩ := h.inst_of hf.coherent hi'
  generalize hcopy : (Inst.binary .copy x y) = inst' at hre
  cases hre with
  | same =>
    cases inst with
    | binary op a c =>
      cases hcopy
      exact hf.noCopies hinst
    | _ => cases hcopy
  | always _ _ _ => cases hcopy

theorem tyOf_eq {v : ValueId} {o : ValueDef} (hv : f.flow.origin? v = some o) :
    f'.tyOf (τ v) = f.tyOf v := by
  rw [Func.tyOf_eq hv]
  rcases h.value hv with ⟨hτ, hv'⟩ | ⟨ty, i, home, xs, rfl, -, -, -, hv'⟩
  · rw [hτ, Func.tyOf_eq hv']
  · rw [Func.tyOf_eq hv']
    rfl

theorem kept_of_home (hf : f.Coherent) {v : ValueId} {ty : Ty} {i : InstId} {home : BlockId}
    {xs : List InstId} (hv : f.flow.origin? v = some (.result ty i)) (hxs : f.insts home = .ok xs)
    (hi : i ∈ xs) (hb : keep home) :
    τ v = v ∧ f'.flow.origin? v = f.flow.origin? v := by
  rcases h.value hv with ⟨hτ, hv'⟩ | ⟨ty', i', home', xs', he, hxs', hi', hn, -⟩
  · exact ⟨hτ, hv'.trans hv.symm⟩
  · cases he
    rw [hf.layout.one_block hxs hxs' hi hi'] at hb
    exact absurd hb hn

theorem yieldTy_eq (hf : f.Coherent) {b : BlockId} {xs : List InstId} {i : InstId} (hb : keep b)
    (hxs : f.insts b = .ok xs) (hi : i ∈ xs) : f'.yieldTy (σ i) = f.yieldTy i :=
  yieldTy_congr hf.flow (h.result? hb hxs hi) fun _ ho =>
    (h.kept_of_home hf ho hxs hi hb).2.trans ho

theorem typed (hf : f.Formed entry) (ht : f.Typed) : f'.Typed := by
  intro i' inst' hi'
  obtain ⟨b, xs, i, inst, hb, hxs, hi, rfl, hinst, hre⟩ := h.inst_of hf.coherent hi'
  rw [h.yieldTy_eq hf.coherent hb hxs hi]
  have hrule := ht hinst
  cases hre with
  | always _ _ _ => trivial
  | same =>
    have hkept : f.Rule f.tyOf (f.yieldTy i) (inst.keepEdges (gate b)) := by
      cases inst with
      | phi op args preds =>
        intro v hv
        exact hrule v (@Inst.args_keepEdges_subset (gate b) (.phi op args preds) v hv)
      | _ => exact hrule
    refine (Inst.Matches.of_mapArgs (R := fun v v' => v' = τ v) fun _ _ => rfl).rule (f := f) ?_
      h.sig h.imports ?_ hkept
    · rintro v _ hv rfl
      obtain ⟨o, ho⟩ := hf.coherent.flow.operand hinst (Inst.args_keepEdges_subset hv)
      exact h.tyOf_eq ho
    · -- A register is not the result of an instruction that is gone.
      rintro - v _ hv rfl hreg
      obtain ⟨o, ho⟩ := hf.coherent.flow.operand hinst (Inst.args_keepEdges_subset hv)
      rw [ho] at hreg
      rcases h.value ho with ⟨hτ, hv'⟩ | ⟨ty, i, home, ys, rfl, -⟩
      · rw [hτ, hv']
        exact hreg
      · cases hreg

theorem keep_home (hf : f.Coherent) {v : ValueId} {ty : Ty} {i : InstId} {home : BlockId}
    {xs : List InstId} (hv : f.flow.origin? v = some (.result ty i))
    (hv' : f'.flow.origin? v = some (.result ty i)) (hxs : f.insts home = .ok xs) (hi : i ∈ xs) :
    keep home := by
  have hr := h.coherent.flow.origin_result hv'
  obtain ⟨inst', hinst'⟩ := DataFlow.hasInst_of_result hr
  obtain ⟨b, ys, k, inst, hb, hys, hk, he, -, -⟩ := h.inst_of hf hinst'
  rw [he, h.result? hb hys hk] at hr
  have hik := hf.flow.definer_eq hr hv
  rw [hf.layout.one_block hxs hys hi (hik ▸ hk)]
  exact hb

theorem avail (ht : f.Neat entry) {b : BlockId} {pre rest : List InstId} {v : ValueId}
    {o : ValueDef} (hcon : Connects f'.Leads entry b) (hb : keep b)
    (hxs : f.insts b = .ok (pre ++ rest)) (hv : f.flow.origin? v = some o)
    (ha : f.Avail f.Leads entry b rest v ∨ f.Stranded entry v) :
    f'.Avail f'.Leads entry b (rest.map σ) (τ v) ∨ f'.Stranded entry (τ v) := by
  have hc := ht.coherent
  have hyields : ∀ {i ty}, f.flow.origin? v = some (.result ty i) → σ i = i := fun ho =>
    h.still (ht.not_terminator (hc.flow.origin_result ho))
  rcases h.value hv with ⟨hτ, hv'⟩ | ⟨ty, i, home, xs, rfl, -, -, -, hundef⟩
  · rw [hτ]
    rcases ha with ha | ⟨ty, i, home, xs, ho, hxs', hi, hn⟩
    · refine .inl fun ty i ho' => ?_
      rw [hv'] at ho'
      cases ho'
      obtain ⟨home, ys, hys, hi, hg, hout⟩ := ha hv
      have hkeep := h.keep_of_connects (Layout.mem_blocks_iff.2 ⟨ys, hys⟩) hg.connects
      refine ⟨home, ys.map σ, h.insts_iff.2 ⟨hkeep, ys, hys, rfl⟩,
        List.mem_map.2 ⟨i, hi, hyields hv⟩,
        ⟨hcon, fun p hp => hg.2 p (hp.mono fun e => (h.leads ht.toFormed e).2)⟩, fun he hm => ?_⟩
      obtain ⟨k, hk, hki⟩ := List.mem_map.1 hm
      cases hterm : f.flow.isTerminator k with
      | false =>
        rw [h.still hterm] at hki
        exact hout he (hki ▸ hk)
      | true =>
        -- A terminator does not take the place of an instruction that yields.
        have h₁ := h.isTerminator hc hb hxs (List.mem_append_right _ hk)
        have h₂ := h.isTerminator hc hkeep hys hi
        rw [hyields hv, ht.not_terminator (hc.flow.origin_result hv)] at h₂
        rw [hki, h₂, hterm] at h₁
        cases h₁
    · rw [hv] at ho
      cases ho
      refine .inr ⟨ty, i, home, xs.map σ, hv', h.insts_iff.2 ⟨h.keep_home hc hv hv' hxs' hi,
        xs, hxs', rfl⟩, List.mem_map.2 ⟨i, hi, hyields hv⟩,
        fun hcon' => hn (h.connects ht.toFormed hcon')⟩
  · refine .inl fun ty' i' ho' => ?_
    rw [hundef] at ho'
    cases ho'

theorem dominated (ht : f.Neat entry) : f'.Dominated entry := by
  have hf := ht.toFormed
  constructor
  · intro b pre' u' post' inst' v' hcon hxs' hu' hop hv'
    obtain ⟨hb, xs, hxs, he⟩ := h.insts_iff.1 hxs'
    obtain ⟨pre, l, rfl, rfl, hl⟩ := List.map_eq_append_iff.1 he.symm
    obtain ⟨u, post, rfl, rfl, rfl⟩ := List.map_eq_cons_iff.1 hl
    have hmem : u ∈ pre ++ u :: post := List.mem_append_right _ List.mem_cons_self
    obtain ⟨inst, hinst⟩ := hf.coherent.inst_of_mem hxs hmem
    obtain ⟨inst'', hi'', hre⟩ := h.recast hb hxs hmem hinst
    rw [hu'] at hi''
    cases hi''
    cases hre with
    | always _ _ _ => cases hv'
    | same =>
      rw [Inst.op_mapArgs, Inst.op_keepEdges] at hop
      rw [keepEdges_of_not_phi (hf.forms hinst) hop, Inst.args_mapArgs] at hv'
      obtain ⟨v, hv, rfl⟩ := List.mem_map.1 hv'
      obtain ⟨o, ho⟩ := hf.coherent.flow.operand hinst hv
      exact h.avail ht hcon hb hxs ho (ht.dominated.body (h.connects hf hcon) hxs hinst hop hv)
  · intro b xs' u' inst' v' p hcon hxs' hux hu' hop he' hp
    obtain ⟨hb, xs, hxs, rfl⟩ := h.insts_iff.1 hxs'
    obtain ⟨u, hu, rfl⟩ := List.mem_map.1 hux
    obtain ⟨inst, hinst⟩ := hf.coherent.inst_of_mem hxs hu
    obtain ⟨inst'', hi'', hre⟩ := h.recast hb hxs hu hinst
    rw [hu'] at hi''
    cases hi''
    cases hre with
    | always _ _ _ => cases he'
    | same =>
      rw [Inst.op_mapArgs, Inst.op_keepEdges] at hop
      obtain ⟨v, hv, rfl⟩ := Inst.edges_mapArgs he'
      rw [Inst.edges_keepEdges] at hv
      obtain ⟨hv, hgate⟩ := List.mem_filter.1 hv
      obtain ⟨o, ho⟩ := hf.coherent.flow.operand hinst (Inst.arg_of_edge hv)
      have hphi : f.flow.isPhi u = true := (DataFlow.isPhi_of_inst hinst).trans hop
      have hlead : f.Leads p b :=
        ((hf.shape.phi_edges hxs hu hphi hinst).2 p).1 (Inst.block_of_edge hv)
      obtain ⟨zs, hzs⟩ := Layout.mem_blocks_iff.1 hlead.mem_blocks
      have hkeep := (h.leads hf ((h.gate_iff hb hlead).1 hgate)).1
      have hend : f.insts p = .ok (zs ++ []) := by
        rw [List.append_nil]
        exact hzs
      exact h.avail ht hp hkeep hend ho (ht.dominated.phis (h.connects hf hcon) hxs hu hinst hop hv
        (h.connects hf hp))

theorem neat (ht : f.Neat entry) : f'.Neat entry where
  toFormed := h.formed ht.toFormed
  typed := h.typed ht.toFormed ht.typed
  dominated := h.dominated ht
  source a hl := ht.source a (h.leads ht.toFormed hl).2
  phis {b xs' i'} hcon hxs' hi' hphi := by
    obtain ⟨hb, xs, hxs, rfl⟩ := h.insts_iff.1 hxs'
    obtain ⟨i, hi, rfl⟩ := List.mem_map.1 hi'
    rw [h.isPhi ht.coherent hb hxs hi] at hphi
    rw [h.result? hb hxs hi]
    exact ht.phis (h.connects ht.toFormed hcon) hxs hi hphi
  last {i'} hterm := by
    obtain ⟨inst', hinst'⟩ := DataFlow.inst_of_isTerminator hterm
    obtain ⟨b, xs, i, inst, hb, hxs, hi, rfl, -, -⟩ := h.inst_of ht.coherent hinst'
    rw [h.isTerminator ht.coherent hb hxs hi] at hterm
    rw [h.result? hb hxs hi]
    exact ht.last hterm

theorem tidy (ht : f.Tidy entry) : f'.Tidy entry :=
  ⟨h.neat ht.toNeat, (h.regular ht.regular).noCopies⟩

theorem value_of_avail (hf : f.Formed entry) {E : BlockId → BlockId → Prop}
    (hE : ∀ {a b}, E a b → f.Leads a b) {b : BlockId} {rest : List InstId} {v : ValueId}
    {o : ValueDef} (hv : f.flow.origin? v = some o) (ha : f.Avail E entry b rest v) :
    τ v = v ∧ f'.flow.origin? v = f.flow.origin? v := by
  rcases h.value hv with ⟨hτ, hv'⟩ | ⟨ty, i, home, xs, rfl, hxs, hi, hn, -⟩
  · exact ⟨hτ, hv'.trans hv.symm⟩
  · obtain ⟨home', ys, hys, hi', hg, -⟩ := ha hv
    obtain ⟨p, hp⟩ := hg.connects
    rw [hf.coherent.layout.one_block hxs hys hi hi'] at hn
    exact absurd (h.keep_of_connects (Layout.mem_blocks_iff.2 ⟨ys, hys⟩) ⟨p, hp.mono hE⟩) hn

theorem resultWidth?_eq (hf : f.Coherent) {b : BlockId} {xs : List InstId}
    {i : InstId} (hb : keep b) (hxs : f.insts b = .ok xs) (hi : i ∈ xs) :
    Frame.resultWidth? f' (σ i) = Frame.resultWidth? f i :=
  Frame.resultWidth?_congr hf.flow (h.result? hb hxs hi) fun _ ho =>
    (h.kept_of_home hf ho hxs hi hb).2.trans ho

theorem runs_same {E : BlockId → BlockId → Prop} (hf : f.Orderly E entry) {b : BlockId}
    {pre rest : List InstId} {i : InstId} {inst : Inst} (hcon : Connects E entry b)
    (hxs : f.insts b = .ok (pre ++ i :: rest)) (hinst : f.flow.inst? i = some inst)
    (hop : inst.op.isPhi = false) :
    (inst.keepEdges (gate b)).mapArgs τ = inst ∧ ∀ v ∈ inst.args, f'.flow.origin? v =
      f.flow.origin? v := by
  have hkept : ∀ v ∈ inst.args, τ v = v ∧ f'.flow.origin? v = f.flow.origin? v := by
    intro v hv
    obtain ⟨o, ho⟩ := hf.coherent.flow.operand hinst hv
    exact h.value_of_avail hf.toFormed hf.edges ho (hf.body hcon hxs hinst hop hv)
  refine ⟨?_, fun v hv => (hkept v hv).2⟩
  rw [keepEdges_of_not_phi (hf.forms hinst) hop]
  exact Inst.mapArgs_eq_self fun v hv => (hkept v hv).1

theorem incoming?_eq {E : BlockId → BlockId → Prop} (hf : f.Orderly E entry) {p b : BlockId}
    {xs : List InstId} {phi : InstId} {v : ValueId} (hb : keep b) (hcon : Connects E entry p)
    (hE : E p b) (hl : f'.Leads p b) (hxs : f.insts b = .ok xs) (hphi : phi ∈ xs)
    (hisPhi : f.flow.isPhi phi = true) (hv : f.flow.incoming? phi p = .ok (some v)) :
    f'.flow.incoming? phi p = .ok (some v) ∧ f'.flow.origin? v = f.flow.origin? v := by
  have hplain := not_terminator_of_phi hisPhi
  obtain ⟨inst, hinst⟩ := hf.coherent.inst_of_mem hxs hphi
  have hop : inst.op.isPhi = true := (DataFlow.isPhi_of_inst hinst).symm.trans hisPhi
  have hedge := DataFlow.edge_of_incoming? hinst hv
  obtain ⟨o, ho⟩ := hf.coherent.flow.operand hinst (Inst.arg_of_edge hedge)
  obtain ⟨hτ, hv'⟩ := h.value_of_avail hf.toFormed hf.edges ho
    (hf.phis hcon hE hxs hphi hinst hop hedge)
  obtain ⟨inst', hinst', hre⟩ := h.recast hb hxs hphi hinst
  rw [hre.of_body ((DataFlow.isTerminator_of_inst hinst).symm.trans hplain),
    h.still hplain] at hinst'
  refine ⟨DataFlow.incoming?_of_edge hinst' (h.phi_edges hf.toFormed hb hxs hphi hinst hop).1 ?_,
    hv'⟩
  have hmem : (v, p) ∈ (inst.keepEdges (gate b)).edges := by
    rw [Inst.edges_keepEdges]
    exact List.mem_filter.2 ⟨hedge, (h.gate_iff hb (hf.edges hE)).2 hl⟩
  have := Inst.mem_edges_mapArgs τ hmem
  rwa [hτ] at this

end Pruned

/-- A run goes along in the function that is left if the edges it takes are left. -/
theorem Pruned.follows_of (h : f.Pruned f' entry keep σ τ gate way) {E : BlockId → BlockId → Prop}
    (hf : f.Orderly E entry)
    (hleft : ∀ {s : Frame} {pre : List InstId} {i : InstId} {inst : Inst} {c : BlockId},
      keep s.block →
      f.insts s.block = .ok (pre ++ [i]) → f.flow.inst? i = some inst →
      Frame.Goes f s inst c → E s.block c →
      f'.Leads s.block c) :
    f.Follows f' E entry fun b rest b' rest' => b' = b ∧ keep b ∧ rest' = rest.map σ := by
  refine ⟨?_, ?_, ?_⟩
  · rintro b pre i rest b' ys inst hcon hxs hne ⟨rfl, hb, rfl⟩ hinst hop
    have hi : i ∈ pre ++ i :: rest := List.mem_append_right _ List.mem_cons_self
    have hterm : f.flow.isTerminator i = false := by
      rw [Bool.eq_false_iff]
      exact fun ht => hne ((hf.terminator_iff hxs).1 ht)
    obtain ⟨inst', hinst', hre⟩ := h.recast hb hxs hi hinst
    obtain ⟨hsame, ho⟩ := h.runs_same hf hcon hxs hinst hop
    rw [hre.of_body ((DataFlow.isTerminator_of_inst hinst).symm.trans hterm), hsame] at hinst'
    have hres := h.result? hb hxs hi
    have hwidth := h.resultWidth?_eq hf.coherent hb hxs hi
    rw [h.still hterm] at hinst' hres hwidth
    exact ⟨rest.map σ, by rw [List.map_cons, h.still hterm], ⟨rfl, hb, rfl⟩,
      ⟨hinst', hres, hwidth, ho⟩⟩
  · rintro b pre i b' ys x hcon hxs ⟨rfl, hb, rfl⟩ hinst
    obtain ⟨inst', hinst', hre⟩ :=
      h.recast hb hxs (List.mem_append_right _ List.mem_cons_self) hinst
    obtain ⟨hsame, ho⟩ := h.runs_same hf hcon hxs hinst rfl
    cases hre with
    | always _ hmem _ => cases hmem
    | same =>
      rw [hsame] at hinst'
      exact ⟨σ i, [], rfl, hinst', ho x List.mem_cons_self⟩
  · rintro s s' t i inst c xs hsits hrest hholds ⟨hblock, hb, hrest'⟩ hinst hgoes hE hent
    obtain ⟨pre, hpre⟩ := hsits.suffix
    rw [hrest] at hpre
    have hi : i ∈ pre ++ [i] := List.mem_append_right _ List.mem_cons_self
    have hterm := hf.goes_terminator hinst hgoes
    have hop : inst.op.isPhi = false :=
      Opcode.not_phi_of_terminator ((DataFlow.isTerminator_of_inst hinst).symm.trans hterm)
    obtain ⟨inst', hinst', hre⟩ := h.recast hb hpre hi hinst
    obtain ⟨hsame, ho⟩ := h.runs_same hf hsits.connects hpre hinst hop
    have hl := hleft hb hpre hinst hgoes hE
    have hgoes' : Frame.Goes f' s' inst' c := by
      cases hre with
      | always _ _ _ =>
        -- The edge that is taken is left, so it is the one that the jump takes.
        have hpre' : f'.insts s.block = .ok (pre.map σ ++ [σ i]) :=
          h.insts_iff.2 ⟨hb, _, hpre, by simp⟩
        have hmem := (leads_last_iff hpre' hinst' rfl).1 hl
        rw [List.mem_singleton.1 hmem]
        exact .jump
      | same =>
        rw [hsame]
        exact hholds.goes hf.coherent hinst ho hgoes
    have hc := h.closed hb (hf.edges hE)
    have hisPhi : ∀ j ∈ xs, f'.flow.isPhi (σ j) = f.flow.isPhi j :=
      fun j hj => h.isPhi hf.coherent hc hent.insts hj
    have hphis : ∀ phi ∈ xs.takeWhile f.flow.isPhi, f.flow.isPhi phi = true :=
      List.all_eq_true.1 List.all_takeWhile
    have hsub : ∀ {j}, j ∈ xs.takeWhile f.flow.isPhi → j ∈ xs :=
      fun hj => (List.takeWhile_prefix _).subset hj
    have hstill : ∀ j ∈ xs.takeWhile f.flow.isPhi, σ j = j :=
      fun j hj => h.still (not_terminator_of_phi (hphis j hj))
    have htake : (xs.map σ).takeWhile f'.flow.isPhi = xs.takeWhile f.flow.isPhi := by
      rw [takeWhile_map_of hisPhi, List.map_congr_left (g := id) hstill, List.map_id]
    obtain ⟨t', hent', hh, hbl, hr⟩ :=
      (show s.Holds f { s' with rest := [] } from ⟨hholds.1, hholds.2, hholds.3⟩).enter hf.coherent
        h.coherent hent (h.insts_iff.2 ⟨hc, xs, hent.insts, rfl⟩) htake
      (fun phi hphi => by rw [← h.result? hc hent.insts (hsub hphi), hstill phi hphi])
      (fun phi hphi v hv => by
        show f'.flow.incoming? phi s'.block = _ ∧ _
        rw [hblock]
        exact h.incoming?_eq hf hc hsits.connects hE hl hent.insts (hsub hphi)
          (hphis phi hphi) hv) (σ i)
    have hmove : s'.step f' = .ok (.next t') :=
      Frame.step_next_iff.2 (.enters hrest' hinst' hgoes' hent')
    refine ⟨1, t', by rw [Frame.run, hmove]; rfl, hh, hbl.trans hent.block.symm,
      hent.block ▸ hc, ?_⟩
    rw [hr, hent.rest, dropWhile_map_of hisPhi]

theorem Pruned.follows (h : f.Pruned f' entry keep σ τ gate f.OneWay) {E : BlockId → BlockId → Prop}
    (hf : f.Orderly E entry) : f.Follows f' E entry fun b rest b' rest' => b' = b ∧ keep b ∧
    rest' = rest.map σ := by
  refine h.follows_of hf fun {s pre i inst c} hb hpre hinst hgoes _ => ?_
  have hi : i ∈ pre ++ [i] := List.mem_append_right _ List.mem_cons_self
  have hterm := hf.goes_terminator hinst hgoes
  have hop : inst.op.isPhi = false :=
    Opcode.not_phi_of_terminator ((DataFlow.isTerminator_of_inst hinst).symm.trans hterm)
  obtain ⟨inst', hinst', hre⟩ := h.recast hb hpre hi hinst
  have hpre' : f'.insts s.block = .ok (pre.map σ ++ [σ i]) := h.insts_iff.2 ⟨hb, _, hpre, by simp⟩
  have hterm' := (h.isTerminator hf.coherent hb hpre hi).trans hterm
  rw [DataFlow.isTerminator_of_inst hinst'] at hterm'
  apply (leads_last_iff hpre' hinst' hterm').2
  cases hre with
  | always _ _ honly =>
    rw [honly s c hgoes]
    exact List.mem_cons_self
  | same =>
    rw [keepEdges_of_not_phi (hf.forms hinst) hop, Inst.blocks_mapArgs]
    exact hgoes.reads.2

/-- The second function has all blocks of the first one, but fewer edges. -/
def Loosened (f f' : Func) (entry : BlockId) : Prop :=
  ∃ σ gate, f.Pruned f' entry (fun _ => True) σ id gate fun _ _ => True

theorem Loosened.refl (hf : f.Formed entry) : f.Loosened f entry := by
  refine ⟨id, fun _ _ => true, hf.coherent, rfl, rfl, rfl, hf.starts, ?_, fun _ => rfl, ?_,
    fun _ _ _ => rfl,
    fun ho => .inl ⟨rfl, ho⟩, fun ho => .inl ho, fun _ hn => absurd trivial hn, fun _ _ => trivial,
    fun _ hl => ?_⟩
  · intro b xs'
    constructor
    · exact fun hxs' => ⟨trivial, xs', hxs', (List.map_id xs').symm⟩
    · rintro ⟨-, xs, hxs, rfl⟩
      rw [List.map_id]
      exact hxs
  · intro b xs i inst _ _ _ hinst
    have hsame : (inst.keepEdges fun _ => true).mapArgs id = inst := by
      rw [Inst.keepEdges_eq_self (hf.coherent.flow.even hinst) fun _ _ => rfl]
      exact Inst.mapArgs_eq_self fun _ _ => rfl
    have hre : Recast (fun _ _ => True) id (fun _ => true) inst
        ((inst.keepEdges fun _ => true).mapArgs id) := .same
    rw [hsame] at hre
    exact ⟨inst, hinst, hre⟩
  · exact iff_of_true rfl hl

theorem Recast.trans {g g' : BlockId → Bool} {inst inst' inst'' : Inst}
    (hf : Verify.formFits inst = true) (h : Recast (fun _ _ => True) id g inst inst')
    (h' : Recast (fun _ _ => True) id g' inst' inst'') :
    Recast (fun _ _ => True) id (fun p => g p && g' p) inst inst'' := by
  have hid : ∀ jnst : Inst, jnst.mapArgs id = jnst :=
    fun jnst => Inst.mapArgs_eq_self fun _ _ => rfl
  cases h' with
  | @always taken ht hmem _ =>
    have hterm : inst.op.isTerminator = true := h.isTerminator.symm.trans ht
    exact .always hterm (h.blocks_subset hf hterm taken hmem) trivial
  | same =>
    cases h with
    | always ht hmem _ => exact .always ht hmem trivial
    | same =>
      rw [hid, hid, Inst.keepEdges_keepEdges, ← hid (inst.keepEdges fun p => g p && g' p)]
      exact .same

theorem Loosened.trans {f'' : Func} (hf : f.Formed entry) (h : f.Loosened f' entry)
    (h' : f'.Loosened f'' entry) :
    f.Loosened f'' entry := by
  obtain ⟨σ, g, h⟩ := h
  obtain ⟨σ', g', h'⟩ := h'
  have hf' := h.formed hf
  -- In a block, what is no terminator keeps its name.
  have hname : ∀ {b xs i}, f.insts b = .ok xs → i ∈ xs →
      (if f.flow.isTerminator i = true then σ' (σ i) else i) = σ' (σ i) := by
    intro b xs i hxs hi
    split
    · rfl
    · rename_i hterm
      have hplain : f.flow.isTerminator i = false := Bool.eq_false_iff.2 hterm
      have hplain' := (h.isTerminator hf.coherent trivial hxs hi).trans hplain
      rw [h'.still hplain', h.still hplain]
  refine ⟨fun i => if f.flow.isTerminator i = true then σ' (σ i) else i,
    fun b p => g b p && g' b p, h'.coherent, h'.sig.trans h.sig, h'.params.trans h.params,
    h'.imports.trans h.imports, h'.starts, ?_, ?_, ?_, ?_, ?_, ?_,
    fun _ hn => absurd trivial hn, fun _ _ => trivial, ?_⟩
  · intro b xs''
    have hmap : ∀ {xs}, f.insts b = .ok xs →
        (xs.map fun i => if f.flow.isTerminator i = true then σ' (σ i) else i) =
        (xs.map σ).map σ' := by
      intro xs hxs
      rw [List.map_map]
      exact List.map_congr_left fun i hi => hname hxs hi
    constructor
    · intro hxs''
      obtain ⟨-, xs', hxs', rfl⟩ := h'.insts_iff.1 hxs''
      obtain ⟨-, xs, hxs, rfl⟩ := h.insts_iff.1 hxs'
      exact ⟨trivial, xs, hxs, (hmap hxs).symm⟩
    · rintro ⟨-, xs, hxs, rfl⟩
      rw [hmap hxs]
      exact h'.insts_iff.2 ⟨trivial, _, h.insts_iff.2 ⟨trivial, xs, hxs, rfl⟩, rfl⟩
  · intro i hterm
    rw [if_neg (by simp [hterm])]
  · intro b xs i inst _ hxs hi hinst
    obtain ⟨inst', hinst', hre⟩ := h.recast trivial hxs hi hinst
    have hxs' := h.insts_iff.2 ⟨trivial, xs, hxs, rfl⟩
    obtain ⟨inst'', hinst'', hre'⟩ := h'.recast trivial hxs' (List.mem_map_of_mem hi) hinst'
    rw [hname hxs hi]
    exact ⟨inst'', hinst'', hre.trans (hf.forms hinst) hre'⟩
  · intro b xs i _ hxs hi
    have hxs' := h.insts_iff.2 ⟨trivial, xs, hxs, rfl⟩
    rw [hname hxs hi, h'.result? trivial hxs' (List.mem_map_of_mem hi), h.result? trivial hxs hi]
  · intro v o ho
    rcases h.value ho with ⟨-, ho'⟩ | ⟨-, -, -, -, -, -, -, hn, -⟩
    · rcases h'.value ho' with ⟨-, ho''⟩ | ⟨-, -, -, -, -, -, -, hn, -⟩
      · exact .inl ⟨rfl, ho''⟩
      · exact absurd trivial hn
    · exact absurd trivial hn
  · intro v o ho
    rcases h'.added ho with ho | ho
    · exact h.added ho
    · exact .inr ho
  · intro p b _ hl
    rw [Bool.and_eq_true]
    constructor
    · rintro ⟨hg, hg'⟩
      exact (h'.gate_iff trivial ((h.gate_iff trivial hl).1 hg)).1 hg'
    · intro hl''
      have hl' := (h'.leads hf' hl'').2
      exact ⟨(h.gate_iff trivial hl).2 hl', (h'.gate_iff trivial hl').2 hl''⟩

theorem Loosened.returns (h : f.Loosened f' entry) (hf : f.Regular entry) (hd : f.Dominated entry)
    {T : BlockId → BlockId → Prop} (hleft : ∀ {a b}, T a b → f.Leads a b → f'.Leads a b)
    {args : List Datum} {d : Datum} {s₀ : Frame} (hs : Frame.start f args = .ok s₀)
    (ha : Along f T s₀ d) : f'.Returns args d := by
  obtain ⟨σ, g, h⟩ := h
  have h₀ := hf.atStart hs
  obtain ⟨n, hn⟩ := ha.returns
  have hrun := Along.of_run hn
  have hserves : f.Serves (f.Takes s₀) entry args d :=
    ⟨hf.orderly_takes hd h₀ hrun, s₀, hs, hrun.takes .start⟩
  obtain ⟨xs, hxs⟩ := Layout.mem_blocks_iff.1 (Func.entry_mem hf.starts)
  refine (h.follows_of hserves.1 fun _ _ _ _ hE =>
    hleft (ha.taken hE) (hf.takes_leads h₀ hE)).returns hserves h.params h.starts hxs
    (h.insts_iff.2 ⟨trivial, xs, hxs, rfl⟩) ⟨rfl, trivial, rfl⟩

theorem Pruned.returns (h : f.Pruned f' entry keep σ τ gate f.OneWay) (ht : f.Tidy entry)
    {args : List Datum} {d : Datum} (hd : f.Returns args d) : f'.Returns args d := by
  obtain ⟨E, hs⟩ := hd.serves ht.regular ht.dominated
  have hmem := Func.entry_mem ht.regular.starts
  obtain ⟨xs, hxs⟩ := Layout.mem_blocks_iff.1 hmem
  have hkeep := h.keep_of_connects hmem (.refl _ _)
  exact (h.follows hs.1).returns hs h.params h.starts hxs (h.insts_iff.2 ⟨hkeep, xs, hxs, rfl⟩)
    ⟨rfl, hkeep, rfl⟩

end Func

end MiddleEnd
