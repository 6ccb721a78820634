import MiddleEnd.Proofs.Substitution

/-!
# Thinning

Some instructions are taken out of a function. Nothing that stays refers to their results, so that a
run does without them: it comes by the same frames, but for the values that are gone and for the
cells that only the missing instructions access.
-/

namespace MiddleEnd

namespace Func

/-- The second function has all instructions of the first one but those of `D`. -/
structure Lacks (f f' : Func) (D : List InstId) : Prop where
  insts : ∀ b, f'.insts b = (f.insts b).map (·.filter (· ∉ D))
  inst? : ∀ i, f'.flow.inst? i = if i ∈ D then none else f.flow.inst? i
  result? : ∀ i, f'.flow.result? i = if i ∈ D then none else f.flow.result? i
  params : f'.flow.params = f.flow.params

/-- The second function is the first one without the instructions of `D`, and perhaps with more
constants. -/
structure Thinned (f f' : Func) (D : List InstId) : Prop where
  insts : ∀ b, f'.insts b = (f.insts b).map (·.filter (· ∉ D))
  inst? : ∀ i, f'.flow.inst? i = if i ∈ D then none else f.flow.inst? i
  result? : ∀ i, f'.flow.result? i = if i ∈ D then none else f.flow.result? i
  origin? : ∀ {v o}, f.flow.origin? v = some o → (∀ i ∈ D, f.flow.result? i ≠ some v) →
    f'.flow.origin? v = some o
  added : ∀ {v o}, f'.flow.origin? v = some o → f.flow.origin? v = some o ∨ o.isConst = true ∨
    o.isUndef = true
  params : f'.flow.params = f.flow.params
  imports : f'.flow.imports = f.flow.imports
  alike : Alike f f'

/-- Nothing that stays refers to what goes, and control does not depend on it. -/
structure Idle (f : Func) (D : List InstId) : Prop where
  body : ∀ i ∈ D, f.flow.isTerminator i = false
  unused : ∀ {i inst}, i ∉ D → f.flow.inst? i = some inst →
    ∀ v ∈ inst.args, ∀ j ∈ D, f.flow.result? j ≠ some v

variable {f f' : Func} {D : List InstId} {E : BlockId → BlockId → Prop} {entry : BlockId}

theorem Thinned.refl (f : Func) : Thinned f f [] := by
  refine ⟨fun b => ?_, fun i => by simp, fun i => by simp, fun h _ => h, fun h => .inl h,
    rfl, rfl, .refl f⟩
  cases f.insts b with
  | error e => rfl
  | ok xs =>
    rw [map_ok, List.filter_eq_self.2]
    intro i _
    simp

theorem Lacks.isPhi (h : Lacks f f' D) {i : InstId} (hi : i ∉ D) :
    f'.flow.isPhi i = f.flow.isPhi i := by
  unfold DataFlow.isPhi DataFlow.op?
  rw [h.inst?, if_neg hi]

theorem Lacks.isTerminator (h : Lacks f f' D) {i : InstId} (hi : i ∉ D) :
    f'.flow.isTerminator i = f.flow.isTerminator i := by
  unfold DataFlow.isTerminator DataFlow.op?
  rw [h.inst?, if_neg hi]

theorem Lacks.inst_of (h : Lacks f f' D) {i : InstId} {inst : Inst}
    (hi : f'.flow.inst? i = some inst) :
    i ∉ D ∧ f.flow.inst? i = some inst := by
  rw [h.inst?] at hi
  split at hi
  · cases hi
  · exact ⟨by assumption, hi⟩

theorem Lacks.insts_of (h : Lacks f f' D) {b : BlockId} {xs' : List InstId}
    (hb : f'.insts b = .ok xs') :
    ∃ xs, f.insts b = .ok xs ∧ xs' = xs.filter (· ∉ D) := by
  rw [h.insts, map_eq_ok] at hb
  obtain ⟨xs, hxs, rfl⟩ := hb
  exact ⟨xs, hxs, rfl⟩

theorem Lacks.insts_ok (h : Lacks f f' D) {b : BlockId} {xs : List InstId}
    (hb : f.insts b = .ok xs) :
    f'.insts b = .ok (xs.filter (· ∉ D)) := by
  rw [h.insts, hb, map_ok]

theorem Thinned.lacks (h : Thinned f f' D) : Lacks f f' D := ⟨h.insts, h.inst?, h.result?, h.params⟩

theorem Thinned.isPhi (h : Thinned f f' D) {i : InstId} (hi : i ∉ D) :
    f'.flow.isPhi i = f.flow.isPhi i :=
  h.lacks.isPhi hi

theorem Thinned.isTerminator (h : Thinned f f' D) {i : InstId} (hi : i ∉ D) :
    f'.flow.isTerminator i = f.flow.isTerminator i := h.lacks.isTerminator hi

theorem Thinned.inst_of (h : Thinned f f' D) {i : InstId} {inst : Inst}
    (hi : f'.flow.inst? i = some inst) :
    i ∉ D ∧ f.flow.inst? i = some inst := h.lacks.inst_of hi

theorem Thinned.insts_of (h : Thinned f f' D) {b : BlockId} {xs' : List InstId}
    (hb : f'.insts b = .ok xs') :
    ∃ xs, f.insts b = .ok xs ∧ xs' = xs.filter (· ∉ D) := h.lacks.insts_of hb

theorem Thinned.insts_ok (h : Thinned f f' D) {b : BlockId} {xs : List InstId}
    (hb : f.insts b = .ok xs) :
    f'.insts b = .ok (xs.filter (· ∉ D)) := h.lacks.insts_ok hb

theorem Thinned.shrink (h : Thinned f f' D) {f'' : Func} {i : InstId} (hi : i ∉ D)
    (hs : DataFlow.Shrunk f'.flow f''.flow i) (ha : Alike f' f'')
    (hl : ∀ c, f''.insts c = (f'.insts c).map (·.filter (· ≠ i))) : Thinned f f'' (D ++ [i]) := by
  have hmem : ∀ {j}, j ∈ D ++ [i] ↔ j ∈ D ∨ j = i := by simp
  refine ⟨fun b => ?_, fun j => ?_, fun j => ?_, fun {v o} hv hn => ?_, fun {v o} hv => ?_,
    hs.params.trans h.params, hs.imports.trans h.imports, h.alike.trans ha⟩
  · rw [hl, h.insts]
    cases f.insts b with
    | error e => rfl
    | ok xs =>
      rw [map_ok, map_ok, map_ok, List.filter_filter]
      congr 2
      funext j
      simp [hmem, and_comm]
  · rw [hs.inst?, h.inst?]
    by_cases hj : j = i
    · rw [if_pos hj, if_pos (hmem.2 (.inr hj))]
    · by_cases hD : j ∈ D
      · rw [if_neg hj, if_pos hD, if_pos (hmem.2 (.inl hD))]
      · rw [if_neg hj, if_neg hD, if_neg (by simp [hj, hD])]
  · rw [hs.result?, h.result?]
    by_cases hj : j = i
    · rw [if_pos hj, if_pos (hmem.2 (.inr hj))]
    · by_cases hD : j ∈ D
      · rw [if_neg hj, if_pos hD, if_pos (hmem.2 (.inl hD))]
      · rw [if_neg hj, if_neg hD, if_neg (by simp [hj, hD])]
  · have hne : f'.flow.result? i ≠ some v := by
      rw [h.result?, if_neg hi]
      exact hn i (hmem.2 (.inr rfl))
    rw [hs.origin?, if_neg hne]
    exact h.origin? hv fun j hj => hn j (hmem.2 (.inl hj))
  · rw [hs.origin?] at hv
    split at hv
    · cases hv
    · exact h.added hv

theorem Thinned.starts (h : Thinned f f' D) (he : f.entry = .ok entry) : f'.entry = .ok entry :=
  h.alike.starts he

theorem Idle.last_stays (hd : f.Idle D) (hs : f.WellShaped) {b : BlockId} {xs : List InstId}
    (hb : f.insts b = .ok xs) :
    ∃ front t, xs = front ++ [t] ∧ t ∉ D ∧ f.flow.isTerminator t = true ∧
      ∀ i ∈ front, f.flow.isTerminator i = false := by
  obtain ⟨front, t, he, ht, hfront⟩ := hs.ended hb
  refine ⟨front, t, he, fun hm => ?_, ht, hfront⟩
  rw [hd.body t hm] at ht
  cases ht

theorem Thinned.leads_iff (h : Thinned f f' D) (hd : f.Idle D) (hs : f.WellShaped) {a b : BlockId} :
    f'.Leads a b ↔ f.Leads a b := by
  rw [Func.leads_iff, Func.leads_iff]
  have hlast : ∀ {xs}, f.insts a = .ok xs → (xs.filter (· ∉ D)).getLast? = xs.getLast? ∧
      ∀ t, xs.getLast? = some t → t ∉ D := by
    intro xs hxs
    obtain ⟨front, t, rfl, ht, -⟩ := hd.last_stays hs hxs
    simp [ht]
  constructor
  · rintro ⟨xs', t, inst, hxs', hl, hi, hterm, hb⟩
    obtain ⟨xs, hxs, rfl⟩ := h.insts_of hxs'
    rw [(hlast hxs).1] at hl
    exact ⟨xs, t, inst, hxs, hl, (h.inst_of hi).2, hterm, hb⟩
  · rintro ⟨xs, t, inst, hxs, hl, hi, hterm, hb⟩
    refine ⟨_, t, inst, h.insts_ok hxs, (hlast hxs).1.trans hl, ?_, hterm, hb⟩
    rw [h.inst?, if_neg ((hlast hxs).2 t hl)]
    exact hi

theorem Thinned.leads_eq (h : Thinned f f' D) (hd : f.Idle D) (hs : f.WellShaped) :
    f'.Leads = f.Leads :=
  funext fun _ => funext fun _ => propext (h.leads_iff hd hs)

theorem Thinned.wellShaped (h : Thinned f f' D) (hd : f.Idle D) (hs : f.WellShaped) :
    f'.WellShaped := by
  constructor
  · intro b xs' hb
    obtain ⟨xs, hxs, rfl⟩ := h.insts_of hb
    obtain ⟨phis, body, last, rfl, hsh⟩ := hs.shaped hxs
    have hlast : last ∉ D := fun hm => by
      have := hsh.isTerminator
      rw [hd.body last hm] at this
      cases this
    refine ⟨phis.filter (· ∉ D), body.filter (· ∉ D), last, by simp [hlast], ?_, ?_, ?_, ?_⟩
    · intro i hi
      obtain ⟨hi, hn⟩ := List.mem_filter.1 hi
      rw [h.isPhi (by simpa using hn)]
      exact hsh.isPhi i hi
    · intro i hi
      obtain ⟨hi, hn⟩ := List.mem_filter.1 hi
      rw [h.isPhi (by simpa using hn), h.isTerminator (by simpa using hn)]
      exact hsh.plain i hi
    · rw [h.isTerminator hlast]
      exact hsh.isTerminator
    · intro i inst hi hin
      obtain ⟨hi, -⟩ := List.mem_filter.1 hi
      obtain ⟨hn, hm⟩ := hsh.edges hi (h.inst_of hin).2
      exact ⟨hn, fun p => (hm p).trans (h.leads_iff hd hs).symm⟩
  · intro i inst hi b hb
    show b ∈ f'.layout.blocks
    rw [h.alike.blocks]
    exact hs.targets (h.inst_of hi).2 b hb

theorem Thinned.behind (h : Thinned f f' D) {b : BlockId} {rest rest' : List InstId}
    {i : InstId} (hi : i ∉ D) (hsub : ∀ j ∈ rest', j ∈ rest) (hb : f.Behind E entry b rest i) :
    f'.Behind E entry b rest' i := by
  obtain ⟨home, xs, hxs, hix, hg, hout⟩ := hb
  refine ⟨home, _, h.insts_ok hxs, List.mem_filter.2 ⟨hix, by simpa using hi⟩, hg, fun he hm => ?_⟩
  exact hout he (hsub i hm)

theorem Thinned.avail (h : Thinned f f' D) (hc : f'.Coherent) {b : BlockId}
    {rest rest' : List InstId} {v : ValueId} (hsub : ∀ j ∈ rest', j ∈ rest)
    (ha : f.Avail E entry b rest v) : f'.Avail E entry b rest' v := by
  intro ty i ho
  have ho' : f.flow.origin? v = some (.result ty i) := by
    rcases h.added ho with ho | ho | ho
    · exact ho
    · simp [ValueDef.isConst] at ho
    · simp [ValueDef.isUndef] at ho
  obtain ⟨inst, hi⟩ := DataFlow.hasInst_of_result (hc.flow.origin_result ho)
  exact h.behind (h.inst_of hi).1 hsub (ha ho')

theorem Formed.thin (hf : f.Formed entry) (h : Thinned f f' D) (hd : f.Idle D) (hc : f'.Coherent) :
    f'.Formed entry := by
  refine ⟨hc, h.starts hf.starts, h.wellShaped hd hf.shape, fun hi => hf.forms (h.inst_of hi).2, ?_⟩
  intro xs' hxs' i hi
  obtain ⟨xs, hxs, rfl⟩ := h.insts_of hxs'
  obtain ⟨hi, hn⟩ := List.mem_filter.1 hi
  rw [h.isPhi (by simpa using hn)]
  exact hf.bare hxs i hi

theorem Regular.thin (hf : f.Regular entry) (h : Thinned f f' D) (hd : f.Idle D)
    (hc : f'.Coherent) :
    f'.Regular entry :=
  ⟨hf.toFormed.thin h hd hc, fun hi => hf.noCopies (h.inst_of hi).2⟩

theorem Thinned.split (h : Thinned f f' D) {b : BlockId} {pre' post' : List InstId} {u : InstId}
    (hb : f'.insts b = .ok (pre' ++ u :: post')) :
    ∃ pre post, f.insts b = .ok (pre ++ u :: post) ∧ ∀ j ∈ u :: post', j ∈ u :: post := by
  obtain ⟨xs, hxs, he⟩ := h.insts_of hb
  obtain ⟨pre, l, rfl, -, hl⟩ := List.filter_eq_append_iff.1 he.symm
  obtain ⟨skip, post, rfl, -, -, hpost⟩ := List.filter_eq_cons_iff.1 hl
  rw [← List.append_assoc] at hxs
  refine ⟨pre ++ skip, post, hxs, ?_⟩
  intro j hj
  rcases List.mem_cons.1 hj with rfl | hj
  · exact List.mem_cons_self
  · rw [← hpost] at hj
    exact List.mem_cons_of_mem _ (List.mem_filter.1 hj).1

theorem Dominated.thin (hdom : f.Dominated entry) (hs : f.WellShaped) (hf : f.Coherent)
    (h : Thinned f f' D) (hd : f.Idle D) (hc : f'.Coherent) : f'.Dominated entry := by
  have hleads := h.leads_eq hd hs
  have hstranded : ∀ {u inst v}, u ∉ D → f.flow.inst? u = some inst → v ∈ inst.args →
      f.Stranded entry v →
      f'.Stranded entry v := by
    rintro u inst v hu hinst hv ⟨ty, i, home, xs, ho, hxs, hi, hn⟩
    have hiD : i ∉ D := fun hm => hd.unused hu hinst v hv i hm (hf.flow.origin_result ho)
    refine ⟨ty, i, home, _, h.origin? ho (hd.unused hu hinst v hv), h.insts_ok hxs,
      List.mem_filter.2 ⟨hi, by simpa using hiD⟩, ?_⟩
    rwa [hleads]
  constructor
  · intro b pre u post inst v hcon hb hu hphi hv
    obtain ⟨hiD, hinst⟩ := h.inst_of hu
    obtain ⟨pre', post', hxs, hsub⟩ := h.split hb
    rw [hleads] at hcon ⊢
    exact (hdom.body hcon hxs hinst hphi hv).imp (h.avail hc hsub) (hstranded hiD hinst hv)
  · intro b xs' u inst v p hcon hb hx hu hphi he hp
    obtain ⟨hiD, hinst⟩ := h.inst_of hu
    obtain ⟨xs, hxs, rfl⟩ := h.insts_of hb
    rw [hleads] at hcon hp ⊢
    exact (hdom.phis hcon hxs (List.mem_filter.1 hx).1 hinst hphi he hp).imp
      (h.avail hc fun _ hj => hj) (hstranded hiD hinst (Inst.arg_of_edge he))

theorem Orderly.thin (hf : f.Orderly E entry) (h : Thinned f f' D) (hd : f.Idle D)
    (hc : f'.Coherent) :
    f'.Orderly E entry := by
  refine ⟨hf.toRegular.thin h hd hc, fun he => (h.leads_iff hd hf.shape).2 (hf.edges he), ?_, ?_⟩
  · intro b pre' u post' inst v hcon hb hu hphi hv
    obtain ⟨pre, post, hxs, hsub⟩ := h.split hb
    exact h.avail hc hsub (hf.body hcon hxs (h.inst_of hu).2 hphi hv)
  · intro b xs' u inst v p hcon hE hb hx hu hphi hv
    obtain ⟨xs, hxs, rfl⟩ := h.insts_of hb
    exact h.avail hc (fun _ hj => hj) (hf.phis hcon hE hxs (List.mem_filter.1 hx).1
      (h.inst_of hu).2 hphi hv)

end Func

theorem Builder.removeInsts_ok {b : Builder} (h : b.func.Coherent) {D : List InstId} (hn : D.Nodup)
    (hD : ∀ i ∈ D, ∃ inst, b.flow.inst? i = some inst)
    (hfree : ∀ {pre i post}, D = pre ++ i :: post → ∀ v, b.flow.result? i = some v →
      ∀ j jnst, j ∉ pre → b.flow.inst? j = some jnst → v ∉ jnst.args) :
    ∃ b', D.foldlM (fun c i => Builder.removeInst c i) b = .ok b' ∧ b'.func.Coherent ∧
      b.func.Thinned b'.func D ∧ b'.flow.insts.size + D.length = b.flow.insts.size := by
  refine foldlM_yields (fun pre (c : Builder) => c.func.Coherent ∧ b.func.Thinned c.func pre ∧
    c.flow.insts.size + pre.length = b.flow.insts.size) ⟨h, .refl _, rfl⟩ ?_
  rintro pre i post c he ⟨hc, ht, hsize⟩
  have hi : i ∉ pre := by
    rw [he] at hn
    exact fun hi => (List.nodup_append.1 hn).2.2 i hi i List.mem_cons_self rfl
  obtain ⟨inst, hinst⟩ := hD i (by rw [he]; exact List.mem_append_right _ List.mem_cons_self)
  have hinst' : c.flow.inst? i = some inst := by
    rw [Builder.flow, ht.inst?, if_neg hi]
    exact hinst
  obtain ⟨c', hc', hcoh, hs, ha, hl⟩ := Builder.removeInst_ok hc hinst' fun v hv j jnst hj => by
    rw [Builder.flow, ht.result?, if_neg hi] at hv
    obtain ⟨hjp, hj⟩ := ht.inst_of hj
    exact hfree he v hv j jnst hjp hj
  refine ⟨c', hc', hcoh, ht.shrink hi hs ha hl, ?_⟩
  have := hs.size
  rw [List.length_append, List.length_singleton]
  omega

theorem Builder.removeReplaced_ok {b : Builder} {g : DataFlow} {i : InstId} {inst : Inst}
    {r v : ValueId} (hi : b.flow.inst? i = some inst) (hr : b.flow.result? i = some r) (hne : v ≠ r)
    (hterm : inst.op.isTerminator = false) (hcoh : (b.withFlow g).func.Coherent)
    (hR : DataFlow.Rewired b.flow g fun _ inst => inst.mapArgs (DataFlow.swap r v)) :
    ∃ d, (b.withFlow g).removeInst i = .ok d ∧ d.func.Coherent ∧ DataFlow.Shrunk g d.flow i ∧
      (∀ c, d.func.insts c = (b.func.insts c).map (·.filter (· ≠ i))) ∧
      (b.withFlow g).func.Thinned d.func [i] ∧ (b.withFlow g).func.Idle [i] := by
  have hunused : ∀ {j jnst}, g.inst? j = some jnst → r ∉ jnst.args := by
    intro j jnst hj hmem
    obtain ⟨jnst', -, rfl⟩ := hR.exists_inst hj
    rw [Inst.args_mapArgs] at hmem
    obtain ⟨w, -, hw⟩ := List.mem_map.1 hmem
    by_cases hwr : w = r
    · rw [DataFlow.swap, if_pos hwr] at hw
      exact hne hw
    · rw [DataFlow.swap_of_ne hwr] at hw
      exact hwr hw
  have hi' : (b.withFlow g).flow.inst? i = some (inst.mapArgs (DataFlow.swap r v)) := by
    rw [flow_withFlow, hR.inst?, hi, Option.map_some]
  have hr' : ∀ {w}, g.result? i = some w → w = r := by
    intro w hw
    rw [hR.result?, hr] at hw
    exact (Option.some.inj hw).symm
  obtain ⟨d, hd, hcohd, hs, halike, hl⟩ := removeInst_ok hcoh hi' fun w hw j jnst hj =>
    hr' hw ▸ hunused hj
  refine ⟨d, hd, hcohd, hs, hl, (Func.Thinned.refl _).shrink List.not_mem_nil hs halike hl, ?_, ?_⟩
  · intro j hj
    rw [List.mem_singleton.1 hj]
    refine (DataFlow.isTerminator_of_inst hi').trans ?_
    rw [Inst.op_mapArgs, hterm]
  · intro j jnst _ hj w hw k hk hkw
    rw [List.mem_singleton.1 hk] at hkw
    exact hunused hj (hr' hkw ▸ hw)

/-- The frames agree but for results of `D`, for cells of `C` and for the instructions of `D` that
are to run. -/
structure Frame.Agree (f : Func) (D : List InstId) (C : Cell → Prop) (s s' : Frame) : Prop where
  block : s'.block = s.block
  rest : s'.rest = s.rest.filter (· ∉ D)
  activation : s'.activation = s.activation
  values : ∀ {v}, (∀ j ∈ D, f.flow.result? j ≠ some v) → s'.values v = s.values v
  memory : ∀ {cell}, ¬ C cell → s'.memory cell = s.memory cell

/-- Instructions of `D` write to cells of `C`, and nothing that stays reads these. -/
structure Func.Apart (f : Func) (E : BlockId → BlockId → Prop) (s₀ : Frame) (D : List InstId)
    (C : Cell → Prop) :
    Prop where
  stores : ∀ {s i rest x y cell}, Reached f E s₀ s → s.rest = i :: rest → i ∈ D →
    f.flow.inst? i = some (.binary .store x y) → s.read f x = .ok (.address cell) → C cell
  loads : ∀ {s i rest x cell}, Reached f E s₀ s → s.rest = i :: rest → i ∉ D →
    f.flow.inst? i = some (.unary .load x) → s.read f x = .ok (.address cell) → ¬ C cell

section Runs

variable {f f' : Func} {D : List InstId} {C : Cell → Prop} {E : BlockId → BlockId → Prop}
  {entry : BlockId} {s₀ s s' t : Frame} {d : Datum}

theorem Func.apart_of_noStores (hD : ∀ i ∈ D, ∀ x y, f.flow.inst? i ≠ some (.binary .store x y)) :
    f.Apart E s₀ D fun _ => False where
  stores _ _ hi hinst _ := hD _ hi _ _ hinst
  loads _ _ _ _ _ := id

theorem Frame.Agree.read (h : s.Agree f D C s') (ht : f.Thinned f' D) (hd : f.Idle D)
    (hc : f.Coherent) {i : InstId} {inst : Inst} (hi : f.flow.inst? i = some inst) (hn : i ∉ D)
    {v : ValueId} (hv : v ∈ inst.args) :
    s'.read f' v = s.read f v := by
  obtain ⟨o, ho⟩ := hc.flow.operand hi hv
  have hfree := hd.unused hn hi v hv
  exact Frame.read_congr ((ht.origin? ho hfree).trans ho.symm) (h.values hfree)

theorem Func.Thinned.origin_result (ht : f.Thinned f' D) (hc : f.Coherent) {i : InstId} (hi : i ∉ D)
    {v : ValueId} {ty : Ty} (ho : f.flow.origin? v = some (.result ty i)) :
    f'.flow.origin? v = some (.result ty i) := by
  refine ht.origin? ho fun j hj hjv => hi ?_
  rwa [← hc.flow.definer_eq hjv ho] at hj

theorem Frame.resultWidth?_thin (ht : f.Thinned f' D) (hc : f.Coherent) {i : InstId} (hi : i ∉ D) :
    Frame.resultWidth? f' i = Frame.resultWidth? f i :=
  Frame.resultWidth?_congr hc.flow (by rw [ht.result?, if_neg hi]) fun _ ho =>
    ht.origin_result hc hi ho

theorem Frame.Agree.gives (h : s.Agree f D C s') (ht : f.Thinned f' D) (hd : f.Idle D)
    (hc : f.Coherent) {i : InstId} {inst : Inst} (hi : f.flow.inst? i = some inst) (hn : i ∉ D)
    (hg : Frame.Gives f s i inst d)
    (hload : ∀ {x cell}, inst = .unary .load x → s.read f x = .ok (.address cell) → ¬ C cell) :
    Frame.Gives f' s' i inst d := by
  have hread : ∀ {v}, v ∈ inst.args → s'.read f' v = s.read f v :=
    fun hv => h.read ht hd hc hi hn hv
  have hw := Frame.resultWidth?_thin ht hc hn
  cases hg with
  | alloca =>
    rw [← h.activation]
    exact .alloca
  | @load x cell hx =>
    rw [← h.memory (hload rfl hx)]
    exact .load ((hread (by simp [Inst.args])).trans hx)
  | unary hl hr hx hd' =>
    exact .unary hl hr ((hread (by simp [Inst.args])).trans hx) (Frame.compute_congr hw hd')
  | binary hs hco hx hy hd' =>
    exact .binary hs hco ((hread (by simp [Inst.args])).trans hx)
      ((hread (by simp [Inst.args])).trans hy) (Frame.compute_congr hw hd')

theorem Func.Regular.filter_block (hf : f.Regular entry)
    (hphi : ∀ {i}, i ∉ D → f'.flow.isPhi i = f.flow.isPhi i) {b : BlockId} {xs : List InstId}
    (hb : f.insts b = .ok xs) :
    (xs.filter (· ∉ D)).takeWhile f'.flow.isPhi = (xs.takeWhile f.flow.isPhi).filter (· ∉ D) ∧
      (xs.filter (· ∉ D)).dropWhile f'.flow.isPhi = (xs.dropWhile f.flow.isPhi).filter (· ∉ D) := by
  obtain ⟨-, hbody, hsplit⟩ := hf.body_of_block hb
  have hfilter : xs.filter (· ∉ D) =
      (xs.takeWhile f.flow.isPhi).filter (· ∉ D) ++ (xs.dropWhile f.flow.isPhi).filter (· ∉ D) := by
    rw [← List.filter_append, ← hsplit]
  have hphis : ∀ i ∈ (xs.takeWhile f.flow.isPhi).filter (· ∉ D), f'.flow.isPhi i = true := by
    intro i hi
    obtain ⟨hi, hn⟩ := List.mem_filter.1 hi
    rw [hphi (by simpa using hn)]
    exact List.all_eq_true.1 List.all_takeWhile i hi
  have hrest : ∀ i ∈ (xs.dropWhile f.flow.isPhi).filter (· ∉ D), f'.flow.isPhi i = false := by
    intro i hi
    obtain ⟨hi, hn⟩ := List.mem_filter.1 hi
    rw [hphi (by simpa using hn)]
    exact hbody i hi
  rw [hfilter, List.takeWhile_append_of_pos hphis, List.dropWhile_append_of_pos hphis]
  generalize (xs.dropWhile f.flow.isPhi).filter (· ∉ D) = ys at hrest
  cases ys with
  | nil => simp
  | cons y ys =>
    have := hrest y List.mem_cons_self
    simp [this]

theorem Frame.Agree.enter (h : s.Agree f D C s') (hf : f.Orderly E entry) (ht : f.Thinned f' D)
    (hd : f.Idle D) (hc' : f'.Coherent) {b : BlockId} {xs : List InstId} {i : InstId}
    (hent : Frame.Entered f s t b xs) :
    ∃ t', s'.enter f' i b = .ok t' ∧ t.Agree f D C t' := by
  obtain ⟨htake, hdrop⟩ := hf.filter_block ht.isPhi hent.insts
  have hxs' := ht.insts_ok hent.insts
  have hread : ∀ phi ∈ (xs.takeWhile f.flow.isPhi).filter (· ∉ D),
      ∃ v w e, f'.flow.incoming? phi s'.block = .ok (some v) ∧ f'.flow.result? phi = some w ∧
      s'.read f' v = .ok e ∧ t.values w = some e := by
    intro phi hphi
    obtain ⟨hphi, hn⟩ := List.mem_filter.1 hphi
    have hn : phi ∉ D := by simpa using hn
    obtain ⟨v, w, e, hv, hw, he, hset⟩ := hent.merged phi hphi
    obtain ⟨pinst, hpinst⟩ :=
      hf.coherent.inst_of_mem hent.insts ((List.takeWhile_prefix _).subset hphi)
    have hin : f'.flow.inst phi = f.flow.inst phi := by
      unfold DataFlow.inst
      rw [ht.inst?, if_neg hn]
    have harg : v ∈ pinst.args := Inst.arg_of_edge (DataFlow.edge_of_incoming? hpinst hv)
    refine ⟨v, w, e, ?_, ?_, ?_, hset⟩
    · unfold DataFlow.incoming? at hv ⊢
      rw [hin, h.block]
      exact hv
    · rw [ht.result?, if_neg hn]
      exact hw
    · rw [h.read ht hd hf.coherent hpinst hn harg]
      exact he
  have hmerged : ∀ phi ∈ (xs.takeWhile f.flow.isPhi).filter (· ∉ D),
      ∃ p, s'.merged f' s'.block phi = .ok p := by
    intro phi hphi
    obtain ⟨v, w, e, hv, hw, he, -⟩ := hread phi hphi
    exact ⟨(w, e), Frame.merged_eq_ok.2 ⟨v, hv, hw, he⟩⟩
  obtain ⟨ps, hps⟩ := mapM_exists hmerged
  have hok := Frame.enter_eq_ok (i := i).2 ⟨_, ps, hxs', by rw [htake]; exact hps, rfl⟩
  refine ⟨_, hok, ?_⟩
  obtain ⟨ys, hent'⟩ := Frame.enter_spec hc' hok
  have hys := hent'.insts
  rw [hxs'] at hys
  cases hys
  refine ⟨hent'.block.trans hent.block.symm, ?_, ?_, fun {v} hv => ?_, fun {cell} hcell => ?_⟩
  · rw [hent'.rest, hent.rest, hdrop]
  · rw [hent'.activation, hent.activation, h.activation]
  · by_cases hphi : ∃ phi ∈ (xs.takeWhile f.flow.isPhi).filter (· ∉ D), f'.flow.result? phi = some v
    · obtain ⟨phi, hphi, hr⟩ := hphi
      obtain ⟨u, w, e, hu, hw, he, hset⟩ := hread phi hphi
      rw [hr] at hw
      cases hw
      obtain ⟨u', w', e', hu', hw', he', hset'⟩ := hent'.merged phi (by rw [htake]; exact hphi)
      rw [hr] at hw'
      cases hw'
      rw [hu] at hu'
      cases hu'
      rw [he] at he'
      cases he'
      rw [hset', hset]
    · rw [hent'.kept v, hent.kept v, h.values hv]
      · intro phi hm hr
        by_cases hn : phi ∈ D
        · exact hv phi hn hr
        · refine hphi ⟨phi, List.mem_filter.2 ⟨hm, by simpa using hn⟩, ?_⟩
          rw [ht.result?, if_neg hn]
          exact hr
      · intro phi hm hr
        rw [htake] at hm
        exact hphi ⟨phi, hm, hr⟩
  · rw [hent'.memory, hent.memory, h.memory hcell]

/-- A run does without instructions that nothing depends on. -/
theorem Along.thin (hf : f.Orderly E entry) (h₀ : s₀.Sits f E entry) (ht : f.Thinned f' D)
    (hd : f.Idle D) (hc' : f'.Coherent) (hC : f.Apart E s₀ D C) (hr : Reached f E s₀ s)
    (ha : Along f E s d) (hag : s.Agree f D C s') :
    Along f' E s' d := by
  induction ha generalizing s' with
  | @done s d hdone =>
    obtain ⟨i, rest, x, hrest, hi, hx, hu⟩ := Frame.step_done_iff.1 hdone
    have hn : i ∉ D := by
      intro hm
      have := hd.body i hm
      rw [DataFlow.isTerminator_of_inst hi] at this
      cases this
    refine .done (Frame.step_done_iff.2 ⟨i, rest.filter (· ∉ D), x, ?_, ?_, ?_, hu⟩)
    · rw [hag.rest, hrest, List.filter_cons_of_pos (by simpa using hn)]
    · rw [ht.inst?, if_neg hn]
      exact hi
    · rw [hag.read ht hd hf.coherent hi hn (by simp [Inst.args])]
      exact hx
  | @next s t d hstep hE _ ih =>
    have hs := hf.sits_reached h₀ hr
    have hnext := hr.next hstep hE
    obtain ⟨pre, hpre⟩ := hs.suffix
    obtain ⟨front, last, hlast, hstay, -⟩ := hd.last_stays hf.shape hpre
    -- Whatever is left of a block, its terminator is still to come.
    have hleft : ∀ {i rest}, s.rest = i :: rest → rest ≠ [] → rest.filter (· ∉ D) ≠ [] := by
      intro i rest hrest hne hnil
      have hmem : last ∈ rest := by
        have := congrArg List.getLast? hlast
        rw [hrest, List.getLast?_append, List.getLast?_cons,
          List.getLast?_eq_some_getLast hne] at this
        simp only [Option.getD_some, Option.some_or, List.getLast?_append, List.getLast?_singleton,
          Option.some.injEq] at this
        rw [← this]
        exact List.getLast_mem hne
      exact List.filter_eq_nil_iff.1 hnil last hmem (by simpa using hstay)
    have hkeep : ∀ {i inst}, f.flow.inst? i = some inst → i ∉ D → f'.flow.inst? i = some inst := by
      intro i inst hi hn
      rw [ht.inst?, if_neg hn]
      exact hi
    cases hf.steps hs hstep hE with
    | @yields i rest inst v e hrest hne hi hv hg =>
      by_cases hn : i ∈ D
      · refine ih hnext ⟨hag.block, ?_, hag.activation, fun {w} hw => ?_, hag.memory⟩
        · rw [hag.rest, hrest, List.filter_cons_of_neg (by simpa using hn)]
          rfl
        · have hwv : w ≠ v := fun he => hw i hn (he ▸ hv)
          rw [hag.values hw]
          simp [Frame.set, hwv]
      · have hrest' : s'.rest = i :: rest.filter (· ∉ D) := by
          rw [hag.rest, hrest, List.filter_cons_of_pos (by simpa using hn)]
        have hg' := hag.gives ht hd hf.coherent hi hn hg fun he hx =>
          hC.loads hr hrest hn (he ▸ hi) hx
        have hv' : f'.flow.result? i = some v := by
          rw [ht.result?, if_neg hn]
          exact hv
        refine .next (Frame.step_next_iff.2 (.yields hrest' (hkeep hi hn) hv' hg')) ?_ (ih hnext ?_)
        · intro htail
          rw [hrest'] at htail
          exact absurd htail (hleft hrest hne)
        · refine ⟨hag.block, rfl, hag.activation, fun {w} hw => ?_, hag.memory⟩
          by_cases hwv : w = v
          · simp [Frame.set, hwv]
          · simp [Frame.set, hwv, hag.values hw]
    | @stores i rest x y cell e hrest hne hi hx hy =>
      by_cases hn : i ∈ D
      · refine ih hnext ⟨hag.block, ?_, hag.activation, hag.values, fun {c} hcell => ?_⟩
        · rw [hag.rest, hrest, List.filter_cons_of_neg (by simpa using hn)]
          rfl
        · have hne : c ≠ cell := by
            rintro rfl
            exact hcell (hC.stores hr hrest hn hi hx)
          rw [hag.memory hcell]
          simp [Frame.store, hne]
      · have hrest' : s'.rest = i :: rest.filter (· ∉ D) := by
          rw [hag.rest, hrest, List.filter_cons_of_pos (by simpa using hn)]
        have hread : ∀ {v}, v ∈ [x, y] → s'.read f' v = s.read f v :=
          fun hv => hag.read ht hd hf.coherent hi hn hv
        have hx' := (hread (by simp)).trans hx
        have hy' := (hread (by simp)).trans hy
        refine .next (Frame.step_next_iff.2 (.stores hrest' (hkeep hi hn) hx' hy')) ?_ (ih hnext ?_)
        · intro htail
          rw [hrest'] at htail
          exact absurd htail (hleft hrest hne)
        · refine ⟨hag.block, rfl, hag.activation, hag.values, fun {c} hcell => ?_⟩
          by_cases hc : c = cell
          · simp [Frame.store, hc]
          · simp [Frame.store, hc, hag.memory hcell]
    | @enters i inst b xs t hrest hi hg hedge hent =>
      have hn : i ∉ D := by
        intro hm
        have := hf.goes_terminator hi hg
        rw [hd.body i hm] at this
        cases this
      have hrest' : s'.rest = [i] := by
        rw [hag.rest, hrest, List.filter_cons_of_pos (by simpa using hn)]
        rfl
      have hgo : Frame.Goes f' s' inst b := by
        cases hg with
        | jump => exact .jump
        | branch hc =>
          exact .branch ((hag.read ht hd hf.coherent hi hn (by simp [Inst.args])).trans hc)
      obtain ⟨t', ht', hagt⟩ := hag.enter (i := i) hf ht hd hc' hent
      refine .next (Frame.step_next_iff.2 (.enters hrest' (hkeep hi hn) hgo ht')) (fun _ => ?_)
        (ih hnext hagt)
      rw [hagt.block, hag.block, hent.block]
      exact hedge

end Runs

end MiddleEnd
