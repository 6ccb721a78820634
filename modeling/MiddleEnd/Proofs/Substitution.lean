import MiddleEnd.Proofs.Equations

/-!
# Substitution

Operands are replaced by values that are the same. The shape of the function stays, operands are
still there when they are used, and a run of the old function is a run of the new one, frame by
frame.
-/

namespace MiddleEnd

theorem mapM_imp {ε α β : Type} {F G : α → Except ε β} {xs : List α} {ys : List β}
    (h : ∀ x ∈ xs, ∀ y, F x = .ok y → G x = .ok y) (hF : xs.mapM F = .ok ys) :
    xs.mapM G = .ok ys := by
  induction xs generalizing ys with
  | nil => exact hF
  | cons x xs ih =>
    obtain ⟨y, rest, hy, hr, rfl⟩ := mapM_cons_eq_ok.1 hF
    rw [mapM_cons_eq_ok]
    exact ⟨y, rest, h x List.mem_cons_self y hy,
      ih (fun z hz => h z (List.mem_cons_of_mem _ hz)) hr, rfl⟩

namespace DataFlow

theorem incoming?_eq_ok {g : DataFlow} {i : InstId} {op : Opcode} {args : List ValueId}
    {preds : List BlockId} {b : BlockId} {v : ValueId}
    (hi : g.inst? i = some (.phi op args preds)) :
    g.incoming? i b = .ok (some v) ↔ ∃ n, preds.idxOf? b = some n ∧ args[n]? = some v := by
  unfold incoming?
  rw [inst_eq_ok.2 hi, ok_bind]
  cases hn : preds.idxOf? b with
  | none => simp [hn]
  | some n =>
    simp only [hn, Option.some.injEq, exists_eq_left']
    constructor
    · intro h
      obtain ⟨w, hw, h⟩ := bind_eq_ok.1 h
      cases h
      exact ofOption_eq_ok.1 hw
    · intro h
      rw [show Checked.nth args n = .ok v from ofOption_eq_ok.2 h, ok_bind]

theorem edge_of_incoming? {g : DataFlow} {i : InstId} {inst : Inst} {b : BlockId} {v : ValueId}
    (hi : g.inst? i = some inst) (h : g.incoming? i b = .ok (some v)) : (v, b) ∈ inst.edges := by
  cases inst with
  | phi op args preds =>
    obtain ⟨n, hn, hv⟩ := (incoming?_eq_ok hi).1 h
    obtain ⟨hl, hb, -⟩ := List.findIdx?_eq_some_iff_getElem.1 hn
    have hp : preds[n]? = some b := by
      rw [List.getElem?_eq_getElem hl]
      simpa using hb
    exact List.mem_of_getElem? (List.getElem?_zip_eq_some.2 ⟨hv, hp⟩)
  | _ =>
    unfold incoming? at h
    rw [inst_eq_ok.2 hi, ok_bind] at h
    cases h

theorem incoming?_of_edge {g : DataFlow} {i : InstId} {inst : Inst} {b : BlockId} {v : ValueId}
    (hi : g.inst? i = some inst) (hn : inst.blocks.Nodup) (h : (v, b) ∈ inst.edges) :
    g.incoming? i b = .ok (some v) := by
  cases inst with
  | phi op args preds =>
    obtain ⟨n, hn'⟩ := List.mem_iff_getElem?.1 h
    obtain ⟨hv, hb⟩ := List.getElem?_zip_eq_some.1 hn'
    exact (incoming?_eq_ok hi).2 ⟨n, (idxOf?_eq_some hn).2 hb, hv⟩
  | _ => cases h

theorem Rewired.isPhi {g g' : DataFlow} {ρ : InstId → Inst → Inst} (h : Rewired g g' ρ)
    (hop : ∀ {i inst}, g.inst? i = some inst → (ρ i inst).op = inst.op) (i : InstId) :
    g'.isPhi i = g.isPhi i := by
  unfold DataFlow.isPhi op?
  rw [h.inst?]
  cases hi : g.inst? i with
  | none => rfl
  | some inst => simp [hop hi]

theorem Rewired.isTerminator {g g' : DataFlow} {ρ : InstId → Inst → Inst} (h : Rewired g g' ρ)
    (hop : ∀ {i inst}, g.inst? i = some inst → (ρ i inst).op = inst.op) (i : InstId) :
    g'.isTerminator i = g.isTerminator i := by
  unfold DataFlow.isTerminator op?
  rw [h.inst?]
  cases hi : g.inst? i with
  | none => rfl
  | some inst => simp [hop hi]

theorem Rewired.exists_inst {g g' : DataFlow} {ρ : InstId → Inst → Inst}
    (h : Rewired g g' ρ) {i : InstId} {inst' : Inst} (hi : g'.inst? i = some inst') :
    ∃ inst, g.inst? i = some inst ∧ inst' = ρ i inst := by
  rw [h.inst?] at hi
  obtain ⟨inst, hinst, rfl⟩ := Option.map_eq_some_iff.1 hi
  exact ⟨inst, hinst, rfl⟩

end DataFlow

namespace Func

variable {f : Func} {g : DataFlow} {ρ : InstId → Inst → Inst} {E : BlockId → BlockId → Prop}
  {entry : BlockId}

theorem leads_rewire (hR : DataFlow.Rewired f.flow g ρ)
    (hop : ∀ {i inst}, f.flow.inst? i = some inst → (ρ i inst).op = inst.op)
    (hbl : ∀ {i inst}, f.flow.inst? i = some inst → (ρ i inst).blocks = inst.blocks)
    {a b : BlockId} :
    ({ f with flow := g } : Func).Leads a b ↔ f.Leads a b := by
  rw [leads_iff, leads_iff]
  constructor
  · rintro ⟨xs, t, inst', hxs, hlast, hi, hterm, hb⟩
    obtain ⟨inst, hinst, rfl⟩ := hR.exists_inst hi
    rw [hop hinst] at hterm
    rw [hbl hinst] at hb
    exact ⟨xs, t, inst, hxs, hlast, hinst, hterm, hb⟩
  · rintro ⟨xs, t, inst, hxs, hlast, hi, hterm, hb⟩
    refine ⟨xs, t, ρ t inst, hxs, hlast, ?_, ?_, ?_⟩
    · show g.inst? t = _
      rw [hR.inst?, hi, Option.map_some]
    · rw [hop hi]
      exact hterm
    · rw [hbl hi]
      exact hb

theorem WellShaped.rewire (h : f.WellShaped) (hR : DataFlow.Rewired f.flow g ρ)
    (hop : ∀ {i inst}, f.flow.inst? i = some inst → (ρ i inst).op = inst.op)
    (hbl : ∀ {i inst}, f.flow.inst? i = some inst → (ρ i inst).blocks = inst.blocks) :
    ({ f with flow := g } : Func).WellShaped := by
  have hphi := hR.isPhi hop
  have hterm := hR.isTerminator hop
  constructor
  · intro b xs hb
    obtain ⟨phis, body, last, he, hs⟩ := h.shaped hb
    refine ⟨phis, body, last, he, ?_, ?_, ?_, ?_⟩
    · exact fun i hi => (hphi i).trans (hs.isPhi i hi)
    · exact fun i hi => ⟨(hphi i).trans (hs.plain i hi).1, (hterm i).trans (hs.plain i hi).2⟩
    · exact (hterm last).trans hs.isTerminator
    · intro i inst' hi hin
      obtain ⟨inst, hinst, rfl⟩ := hR.exists_inst hin
      rw [hbl hinst]
      obtain ⟨hn, hm⟩ := hs.edges hi hinst
      exact ⟨hn, fun p => (hm p).trans (leads_rewire hR hop hbl).symm⟩
  · intro i inst' hi b hb
    obtain ⟨inst, hinst, rfl⟩ := hR.exists_inst hi
    rw [hbl hinst] at hb
    exact h.targets hinst b hb

theorem avail_rewire (hR : DataFlow.Rewired f.flow g ρ) {b : BlockId} {rest : List InstId}
    {v : ValueId} :
    ({ f with flow := g } : Func).Avail E entry b rest v ↔ f.Avail E entry b rest v := by
  constructor
  · exact fun h ty i ho => h (hR.origin_result_iff.2 ho)
  · exact fun h ty i ho => h (hR.origin_result_iff.1 ho)

theorem stranded_rewire (hR : DataFlow.Rewired f.flow g ρ)
    (hleads : ({ f with flow := g } : Func).Leads = f.Leads) {v : ValueId}
    (h : f.Stranded entry v) : ({ f with flow := g } : Func).Stranded entry v := by
  obtain ⟨ty, i, home, xs, ho, hxs, hi, hn⟩ := h
  exact ⟨ty, i, home, xs, hR.origin? ho, hxs, hi, by rwa [hleads]⟩

theorem Formed.rewire (h : f.Formed entry) (hg : g.Exact) (hR : DataFlow.Rewired f.flow g ρ)
    {R : ValueId → ValueId → Prop}
    (hM : ∀ {i inst}, f.flow.inst? i = some inst → Inst.Matches R inst (ρ i inst)) :
    ({ f with flow := g } : Func).Formed entry := by
  have hop : ∀ {i inst}, f.flow.inst? i = some inst → (ρ i inst).op = inst.op :=
    fun hi => (hM hi).op_eq
  refine ⟨h.coherent.rewire hg hR, h.starts, h.shape.rewire hR hop fun hi =>
    (hM hi).blocks_eq, ?_, ?_⟩
  · intro i inst' hi
    obtain ⟨inst, hinst, rfl⟩ := hR.exists_inst hi
    rw [(hM hinst).forms_eq]
    exact h.forms hinst
  · exact fun hxs i hi => (hR.isPhi hop i).trans (h.bare hxs i hi)

theorem Regular.rewire (h : f.Regular entry) (hg : g.Exact) (hR : DataFlow.Rewired f.flow g ρ)
    {R : ValueId → ValueId → Prop}
    (hM : ∀ {i inst}, f.flow.inst? i = some inst → Inst.Matches R inst (ρ i inst)) :
    ({ f with flow := g } : Func).Regular entry := by
  refine ⟨h.toFormed.rewire hg hR hM, fun {i x y} hi => ?_⟩
  obtain ⟨inst, hinst, he⟩ := hR.exists_inst hi
  have hm := hM hinst
  rw [← he] at hm
  cases hm
  exact h.noCopies hinst

theorem Orderly.rewire (h : f.Orderly E entry) (hg : g.Exact) (hR : DataFlow.Rewired f.flow g ρ)
    (hM : ∀ {i inst}, f.flow.inst? i = some inst → Inst.Matches (f.Older E entry) inst (ρ i inst)) :
    ({ f with flow := g } : Func).Orderly E entry := by
  have hop : ∀ {i inst}, f.flow.inst? i = some inst → (ρ i inst).op = inst.op :=
    fun hi => (hM hi).op_eq
  refine ⟨h.toRegular.rewire hg hR hM, ?_, ?_, ?_⟩
  · exact fun he => (leads_rewire hR hop fun hi => (hM hi).blocks_eq).2 (h.edges he)
  · intro b pre u post inst' v hcon hb hu hphi hv
    obtain ⟨inst, hinst, rfl⟩ := hR.exists_inst hu
    rw [hop hinst] at hphi
    obtain ⟨a, ha, hold⟩ := (hM hinst).arg_of_mem hv
    rw [avail_rewire hR]
    exact hold ⟨hcon, pre, hb⟩ (h.body hcon hb hinst hphi ha)
  · intro b xs u inst' v p hcon hE hb hx hu hphi hv
    obtain ⟨inst, hinst, rfl⟩ := hR.exists_inst hu
    rw [hop hinst] at hphi
    obtain ⟨a, ha, hold⟩ := (hM hinst).edge_of_mem hv
    obtain ⟨ys, hys⟩ := Layout.mem_blocks_iff.1 (h.edges hE).mem_blocks
    rw [avail_rewire hR]
    exact hold ⟨hcon, ys, by rw [List.append_nil]; exact hys⟩ (h.phis hcon hE hb hx hinst hphi ha)

end Func

namespace Frame

theorem onWord_eq_ok {f : Func} {i : InstId} {op : Opcode} {a w : Word} :
    onWord f i op a = .ok w ↔ (if op.isCast then
      (resultWidth? f i).bind fun width => (Word.evalCast op a width).toOption.join
    else Word.evalUnary op a) = some w := by
  unfold onWord
  generalize (if op.isCast then _ else _ : Option Word) = result
  cases result <;> simp

theorem onWords_eq_ok {i : InstId} {op : Opcode} {a b w : Word} :
    onWords i op a b = .ok w ↔
      (if op.isCompare then Word.evalCompare op a b else Word.evalBinary op a b) = .ok
        (some w) := by
  unfold onWords
  generalize (if op.isCompare then _ else _ : Checked (Option Word)) = result
  match result with
  | .ok (some w) => simp
  | .ok none =>
    simp only [Except.ok.injEq, reduceCtorEq, iff_false]
    split <;> exact fun h => nomatch h
  | .error e => simp

theorem compute_congr {f f' : Func} {i j : InstId} {op : Opcode} {args : List Datum} {d : Datum}
    (hw : resultWidth? f' j = resultWidth? f i) (h : compute f i op args = .ok d) :
    compute f' j op args = .ok d := by
  unfold compute at h ⊢
  by_cases hu : .undefined ∈ args
  · rw [if_pos hu] at h ⊢
    exact h
  · rw [if_neg hu] at h ⊢
    split at h
    · obtain ⟨w, hw', rfl⟩ := map_eq_ok.1 h
      rw [onWord_eq_ok, ← hw] at hw'
      exact map_eq_ok.2 ⟨w, onWord_eq_ok.2 hw', rfl⟩
    · obtain ⟨w, hw', rfl⟩ := map_eq_ok.1 h
      exact map_eq_ok.2 ⟨w, onWords_eq_ok.2 (onWords_eq_ok.1 hw'), rfl⟩
    · cases h

theorem resultWidth?_rewire {f : Func} {g : DataFlow} {ρ : InstId → Inst → Inst} (hc : f.flow.Exact)
    (hR : DataFlow.Rewired f.flow g ρ) (i : InstId) :
    resultWidth? { f with flow := g } i = resultWidth? f i :=
  resultWidth?_congr hc (hR.result? i) fun _ ho => hR.origin? ho

theorem Gives.carry {f f' : Func} {s s' : Frame} {i : InstId} {inst inst' : Inst} {d : Datum}
    {R : ValueId → ValueId → Prop} (h : Gives f s i inst d) (hm : Inst.Matches R inst inst')
    (hread : ∀ {x x' a}, x ∈ inst.args → R x x' → s.read f x = .ok a → s'.read f' x' = .ok a)
    (hw : resultWidth? f' i = resultWidth? f i) (hmem : s'.memory = s.memory)
    (hact : s'.activation = s.activation) :
    Gives f' s' i inst' d := by
  cases h with
  | alloca =>
    cases hm
    rw [← hact]
    exact .alloca
  | load hx =>
    cases hm with
    | unary hR =>
      rw [← hmem]
      exact .load (hread (by simp [Inst.args]) hR hx)
  | unary hl hr hx hd =>
    cases hm with
    | unary hR => exact .unary hl hr (hread (by simp [Inst.args]) hR hx) (compute_congr hw hd)
  | binary hs hc hx hy hd =>
    cases hm with
    | binary hR hR' =>
      exact .binary hs hc (hread (by simp [Inst.args]) hR hx) (hread (by simp [Inst.args]) hR' hy)
        (compute_congr hw hd)

theorem Goes.carry {f f' : Func} {s s' : Frame} {inst inst' : Inst} {b : BlockId}
    {R : ValueId → ValueId → Prop} (h : Goes f s inst b) (hm : Inst.Matches R inst inst')
    (hread : ∀ {x x' a}, x ∈ inst.args → R x x' → s.read f x = .ok a → s'.read f' x' = .ok a) :
    Goes f' s' inst' b := by
  cases h with
  | jump =>
    cases hm
    exact .jump
  | branch hc =>
    cases hm with
    | branch hR => exact .branch (hread (by simp [Inst.args]) hR hc)

end Frame

theorem Inst.Matches.incoming {R : ValueId → ValueId → Prop} {g g' : DataFlow} {i : InstId}
    {inst inst' : Inst} (hm : Inst.Matches R inst inst') (hi : g.inst? i = some inst)
    (hi' : g'.inst? i = some inst') {b : BlockId} {v : ValueId}
    (hv : g.incoming? i b = .ok (some v)) : ∃ v', g'.incoming? i b = .ok (some v') ∧ R v v' := by
  cases hm with
  | @phi op args args' preds hlen hR =>
    obtain ⟨n, hn, hv⟩ := (DataFlow.incoming?_eq_ok hi).1 hv
    have hlt : n < args'.length := by
      rw [← hlen]
      exact (List.getElem?_eq_some_iff.1 hv).1
    have hv' : args'[n]? = some args'[n] := List.getElem?_eq_getElem hlt
    exact ⟨args'[n], (DataFlow.incoming?_eq_ok hi').2 ⟨n, hn, hv'⟩, hR hv hv'⟩
  | _ => cases DataFlow.edge_of_incoming? hi hv

section Rewiring

variable {f : Func} {g : DataFlow} {ρ : InstId → Inst → Inst} {E : BlockId → BlockId → Prop}
  {entry : BlockId} {s₀ s t : Frame} {d : Datum}

theorem Same.read_rewire (hf : f.Orderly E entry) (hR : DataFlow.Rewired f.flow g ρ)
    {i : InstId} {inst : Inst} {x x' : ValueId} (hi : f.flow.inst? i = some inst)
    (hx : x ∈ inst.args) (hsame : Same f E entry s₀ { f with flow := g } x x')
    (hr : Reached f E s₀ s) (ha : f.Avail E entry s.block s.rest x) (hd : s.read f x = .ok d) :
    s.read { f with flow := g } x' = .ok d := by
  obtain ⟨o, ho⟩ := hf.coherent.flow.operand hi hx
  apply hsame.read hr ha
  rw [Frame.read_congr (f := f) _ rfl]
  · exact hd
  · exact (hR.origin? ho).trans ho.symm

/-- A step of the old function is one of the new function. -/
theorem Same.step_rewire (hf : f.Orderly E entry) (h₀ : Func.AtStart f entry s₀)
    (hR : DataFlow.Rewired f.flow g ρ)
    (hM : ∀ {i inst}, f.flow.inst? i = some inst →
      Inst.Matches (Same f E entry s₀ { f with flow := g }) inst (ρ i inst))
    (hr : Reached f E s₀ s) (hstep : s.step f = .ok (.next t))
    (hE : s.rest.tail = [] → E s.block t.block) :
    s.step { f with flow := g } = .ok (.next t) := by
  have hop : ∀ {i inst}, f.flow.inst? i = some inst → (ρ i inst).op = inst.op :=
    fun hi => (hM hi).op_eq
  have hinst : ∀ {i inst}, f.flow.inst? i = some inst → g.inst? i = some (ρ i inst) := by
    intro i inst hi
    rw [hR.inst?, hi, Option.map_some]
  have hs := hf.sits_reached (hf.sits_atStart h₀) hr
  obtain ⟨pre, hpre⟩ := hs.suffix
  have hread : ∀ {i rest inst x x' a}, s.rest = i :: rest → f.flow.inst? i = some inst →
      inst.op.isPhi = false →
      x ∈ inst.args → Same f E entry s₀ { f with flow := g } x x' → s.read f x = .ok a →
      s.read { f with flow := g } x' = .ok a := by
    intro i rest inst x x' a hrest hi hphi hx hsame hd
    apply hsame.read_rewire hf hR hi hx hr _ hd
    rw [hrest] at hpre ⊢
    exact hf.body hs.connects hpre hi hphi hx
  have hplain : ∀ {i rest inst}, s.rest = i :: rest → f.flow.inst? i = some inst →
      inst.op.isPhi = false := by
    intro i rest inst hrest hi
    rw [← DataFlow.isPhi_of_inst hi]
    exact hs.plain i (by rw [hrest]; exact List.mem_cons_self)
  rw [Frame.step_next_iff] at hstep ⊢
  cases hstep with
  | @yields i rest inst v d hrest hi hv hg =>
    refine .yields hrest (hinst hi) ((hR.result? i).trans hv) (hg.carry (hM hi) ?_ ?_ rfl rfl)
    · exact fun hx hsame hd => hread hrest hi (hplain hrest hi) hx hsame hd
    · exact Frame.resultWidth?_rewire hf.coherent.flow hR i
  | @stores i rest x y cell d hrest hi hx hy =>
    have hm := hM hi
    have hi' := hinst hi
    generalize ρ i (.binary .store x y) = inst' at hm hi'
    cases hm with
    | binary hRx hRy =>
      refine .stores hrest hi' (hread hrest hi (hplain hrest hi) ?_ hRx hx)
        (hread hrest hi (hplain hrest hi) ?_ hRy hy)
      · simp [Inst.args]
      · simp [Inst.args]
  | copies hrest hi _ => exact absurd hi hf.noCopies
  | @enters i rest inst b t hrest hi hg ht =>
    refine .enters hrest (hinst hi) (hg.carry (hM hi) ?_) ?_
    · exact fun hx hsame hd => hread hrest hi (hplain hrest hi) hx hsame hd
    · rw [hrest] at hpre
      have hterm := hf.goes_terminator hi hg
      have hnil := (hf.terminator_iff hpre).1 hterm
      subst hnil
      obtain ⟨xs, ps, hxs, hps, rfl⟩ := Frame.enter_eq_ok.1 ht
      have hisPhi : g.isPhi = f.flow.isPhi := funext (hR.isPhi hop)
      have hblock := hE (by rw [hrest]; rfl)
      obtain ⟨-, -, hframe⟩ := Frame.values_foldl_set ps
        { s with block := b, source? := some s.block, rest := xs.dropWhile f.flow.isPhi }
      rw [hframe] at hblock
      refine Frame.enter_eq_ok.2 ⟨xs, ps, hxs, ?_, by rw [hisPhi]⟩
      show (xs.takeWhile g.isPhi).mapM _ = _
      rw [hisPhi]
      refine mapM_imp (fun phi hphi p hp => ?_) hps
      obtain ⟨w, e⟩ := p
      obtain ⟨v, hv, hw, he⟩ := Frame.merged_eq_ok.1 hp
      have hmem : phi ∈ xs := (List.takeWhile_prefix _).subset hphi
      obtain ⟨pinst, hpinst⟩ := hf.coherent.inst_of_mem hxs hmem
      have hedge := DataFlow.edge_of_incoming? hpinst hv
      have harg : v ∈ pinst.args := Inst.arg_of_edge hedge
      have hpop : pinst.op.isPhi = true := by
        rw [← DataFlow.isPhi_of_inst hpinst]
        exact List.all_eq_true.1 List.all_takeWhile phi hphi
      obtain ⟨v', hv', hsame⟩ := (hM hpinst).incoming hpinst (hinst hpinst) hv
      refine Frame.merged_eq_ok.2 ⟨v', hv', (hR.result? phi).trans hw, ?_⟩
      apply hsame.read_rewire hf hR hpinst harg hr _ he
      rw [hrest]
      exact hf.avail_of_read h₀ hr hterm he (hf.phis hs.connects hblock hxs hmem hpinst hpop hedge)

theorem Along.rewire (hf : f.Orderly E entry) (h₀ : Func.AtStart f entry s₀)
    (hR : DataFlow.Rewired f.flow g ρ)
    (hM : ∀ {i inst}, f.flow.inst? i = some inst →
      Inst.Matches (Same f E entry s₀ { f with flow := g }) inst (ρ i inst))
    (hr : Reached f E s₀ s) (ha : Along f E s d) : Along { f with flow := g } E s d := by
  induction ha with
  | @done s d hdone =>
    obtain ⟨i, rest, x, hrest, hi, hx, hu⟩ := Frame.step_done_iff.1 hdone
    have hs := hf.sits_reached (hf.sits_atStart h₀) hr
    obtain ⟨pre, hpre⟩ := hs.suffix
    have hm := hM hi
    have hi' : g.inst? i = some (ρ i (.unary .retValue x)) := by
      rw [hR.inst?, hi, Option.map_some]
    generalize ρ i (.unary .retValue x) = inst' at hm hi'
    cases hm with
    | unary hsame =>
      refine .done (Frame.step_done_iff.2 ⟨i, rest, _, hrest, hi', ?_, hu⟩)
      apply hsame.read_rewire hf hR hi (by simp [Inst.args]) hr _ hx
      rw [hrest] at hpre ⊢
      exact hf.body hs.connects hpre hi rfl (by simp [Inst.args])
  | @next s t d hstep hE _ ih =>
    exact .next (Same.step_rewire hf h₀ hR hM hr hstep hE) hE (ih (hr.next hstep hE))

end Rewiring

end MiddleEnd
