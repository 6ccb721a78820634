import MiddleEnd.Proofs.Refinement

/-!
# Thickening

Phis are added to a function. Nothing that was there refers to them, so that a run of the function
is also one with the phis, as long as each of them finds what it merges.
-/

namespace MiddleEnd

/-- The first function is the second one with the instructions of `D`, and perhaps with more
constants. -/
structure Func.Thickens (f f' : Func) (D : List InstId) : Prop extends Func.Lacks f f' D where
  origin? : ∀ {v o}, f'.flow.origin? v = some o → f.flow.origin? v = some o

section Runs

variable {f f' : Func} {D : List InstId} {E : BlockId → BlockId → Prop} {entry : BlockId}
  {s₀ s s' t : Frame} {d : Datum}

theorem Frame.Agree.read_back (h : s.Agree f D (fun _ => False) s') (ht : f.Thickens f' D)
    (hd : f.Idle D) (hc' : f'.Coherent) {i : InstId} {inst : Inst}
    (hi : f'.flow.inst? i = some inst) {v : ValueId} (hv : v ∈ inst.args) :
    s.read f v = s'.read f' v := by
  obtain ⟨o, ho⟩ := hc'.flow.operand hi hv
  obtain ⟨hn, hi⟩ := ht.inst_of hi
  exact (Frame.read_congr (ho.trans (ht.origin? ho).symm) (h.values (hd.unused hn hi v hv))).symm

theorem Frame.Agree.gives_back (h : s.Agree f D (fun _ => False) s') (ht : f.Thickens f' D)
    (hd : f.Idle D) (hc' : f'.Coherent) {i : InstId} {inst : Inst}
    (hi : f'.flow.inst? i = some inst) (hg : Frame.Gives f' s' i inst d) :
    Frame.Gives f s i inst d := by
  have hread : ∀ {v}, v ∈ inst.args → s.read f v = s'.read f' v :=
    fun hv => h.read_back ht hd hc' hi hv
  have hw : Frame.resultWidth? f i = Frame.resultWidth? f' i :=
    Frame.resultWidth?_congr hc'.flow (by rw [ht.result?, if_neg (ht.inst_of hi).1])
      fun _ ho => ht.origin? ho
  cases hg with
  | alloca =>
    rw [h.activation]
    exact .alloca
  | @load x cell hx =>
    rw [h.memory (by simp)]
    exact .load ((hread (by simp [Inst.args])).trans hx)
  | unary hl hr hx hd' =>
    exact .unary hl hr ((hread (by simp [Inst.args])).trans hx) (Frame.compute_congr hw hd')
  | binary hs hco hx hy hd' =>
    exact .binary hs hco ((hread (by simp [Inst.args])).trans hx)
      ((hread (by simp [Inst.args])).trans hy) (Frame.compute_congr hw hd')

/-- If the missing phis of a block find what they merge, the function enters the block as well. -/
theorem Frame.Agree.enter_back (h : s.Agree f D (fun _ => False) s') (hf : f.Orderly E entry)
    (ht : f.Thickens f' D) (hd : f.Idle D) (hc' : f'.Coherent) {b : BlockId} {xs xs' : List InstId}
    {i : InstId} {t' : Frame} (hb : f.insts b = .ok xs) (hent : Frame.Entered f' s' t' b xs')
    (hfound : ∀ phi ∈ xs.takeWhile f.flow.isPhi, phi ∈ D → ∃ v w e, f.flow.incoming? phi s.block =
      .ok (some v) ∧ f.flow.result? phi = some w ∧ s.read f v = .ok e) :
    ∃ t, s.enter f i b = .ok t ∧ t.Agree f D (fun _ => False) t' := by
  obtain ⟨htake, hdrop⟩ := hf.filter_block ht.isPhi hb
  have hxs' := hent.insts
  rw [ht.insts_ok hb] at hxs'
  cases hxs'
  have hmerge : ∀ phi ∈ xs.takeWhile f.flow.isPhi, phi ∉ D → ∃ v w e, f.flow.incoming? phi s.block =
      .ok (some v) ∧ f.flow.result? phi = some w ∧ s.read f v = .ok e ∧ t'.values w = some e := by
    intro phi hphi hn
    obtain ⟨v, w, e, hv, hw, he, hset⟩ := hent.merged phi (by
      rw [htake]
      exact List.mem_filter.2 ⟨hphi, by simpa using hn⟩)
    obtain ⟨pinst, hpinst⟩ := hf.coherent.inst_of_mem hb ((List.takeWhile_prefix _).subset hphi)
    have hpinst' : f'.flow.inst? phi = some pinst := by
      rw [ht.inst?, if_neg hn]
      exact hpinst
    have harg : v ∈ pinst.args := by
      have hedge := DataFlow.edge_of_incoming? hpinst' hv
      cases pinst with
      | phi op args preds => exact (List.of_mem_zip hedge).1
      | _ => cases hedge
    refine ⟨v, w, e, ?_, ?_, ?_, hset⟩
    · unfold DataFlow.incoming? DataFlow.inst at hv ⊢
      rw [hpinst', h.block] at hv
      rw [hpinst]
      exact hv
    · rw [ht.result?, if_neg hn] at hw
      exact hw
    · rw [h.read_back ht hd hc' hpinst' harg]
      exact he
  have hmerged : ∀ phi ∈ xs.takeWhile f.flow.isPhi,
      ∃ p, s.merged f s.block phi = .ok p := fun phi hphi => by
    by_cases hn : phi ∈ D
    · obtain ⟨v, w, e, hv, hw, he⟩ := hfound phi hphi hn
      exact ⟨(w, e), Frame.merged_eq_ok.2 ⟨v, hv, hw, he⟩⟩
    · obtain ⟨v, w, e, hv, hw, he, -⟩ := hmerge phi hphi hn
      exact ⟨(w, e), Frame.merged_eq_ok.2 ⟨v, hv, hw, he⟩⟩
  obtain ⟨ps, hps⟩ := mapM_exists hmerged
  have hok := Frame.enter_eq_ok (i := i).2 ⟨_, ps, hb, hps, rfl⟩
  refine ⟨_, hok, ?_⟩
  obtain ⟨ys, hentf⟩ := Frame.enter_spec hf.coherent hok
  have hys := hentf.insts
  rw [hb] at hys
  cases hys
  refine ⟨hent.block.trans hentf.block.symm, ?_, ?_, fun {v} hv => ?_, fun {cell} hcell => ?_⟩
  · rw [hent.rest, hentf.rest, hdrop]
  · rw [hent.activation, hentf.activation, h.activation]
  · by_cases hphi : ∃ phi ∈ xs.takeWhile f.flow.isPhi, f.flow.result? phi = some v
    · obtain ⟨phi, hphi, hr⟩ := hphi
      have hn : phi ∉ D := fun hn => hv phi hn hr
      obtain ⟨u, w, e, hu, hw, he, hset⟩ := hmerge phi hphi hn
      rw [hr] at hw
      cases hw
      obtain ⟨u', w', e', hu', hw', he', hset'⟩ := hentf.merged phi hphi
      rw [hr] at hw'
      cases hw'
      rw [hu] at hu'
      cases hu'
      rw [he] at he'
      cases he'
      rw [hset', hset]
    · rw [hent.kept v, hentf.kept v, h.values hv]
      · exact fun phi hm hr => hphi ⟨phi, hm, hr⟩
      · intro phi hm hr
        rw [htake] at hm
        obtain ⟨hm, hn⟩ := List.mem_filter.1 hm
        rw [ht.result?, if_neg (by simpa using hn)] at hr
        exact hphi ⟨phi, hm, hr⟩
  · rw [hent.memory, hentf.memory, h.memory hcell]

theorem filter_rest (hphi : ∀ i ∈ D, f.flow.isPhi i = true) {rest : List InstId}
    (hplain : ∀ i ∈ rest, f.flow.isPhi i = false) : rest.filter (· ∉ D) = rest := by
  rw [List.filter_eq_self]
  intro i hi
  have : i ∉ D := by
    intro hm
    have := hphi i hm
    rw [hplain i hi] at this
    cases this
  simpa using this

/-- A run goes through more phis than there were. -/
theorem Along.thicken (hf : f.Orderly E entry) (hf' : f'.Regular entry) (h₀ : s₀.Sits f E entry)
    (ht : f.Thickens f' D) (hd : f.Idle D) (hphi : ∀ i ∈ D, f.flow.isPhi i = true)
    (hfound : ∀ {s b xs last}, Reached f E s₀ s → s.rest = [last] →
      f.flow.isTerminator last = true → E s.block b →
      f.insts b = .ok xs → ∀ phi ∈ xs.takeWhile f.flow.isPhi, phi ∈ D → ∃ v w e,
        f.flow.incoming? phi s.block = .ok (some v) ∧ f.flow.result? phi = some w ∧
        s.read f v = .ok e)
    (hr : Reached f E s₀ s) (hs' : s'.Sits f' E entry) (ha : Along f' E s' d)
    (hag : s.Agree f D (fun _ => False) s') : Along f E s d := by
  -- Behind the phis of a block nothing is missing.
  have hsame : ∀ {s s' : Frame}, s.Sits f E entry → s.Agree f D (fun _ => False) s' →
      s'.rest = s.rest := by
    intro s s' hs hag
    rw [hag.rest]
    exact filter_rest hphi hs.plain
  induction ha generalizing s with
  | @done s' d hdone =>
    obtain ⟨i, rest, x, hrest, hi', hx, hu⟩ := Frame.step_done_iff.1 hdone
    obtain ⟨hn, hi⟩ := ht.inst_of hi'
    refine .done (Frame.step_done_iff.2 ⟨i, rest, x, ?_, hi, ?_, hu⟩)
    · rw [← hsame (hf.sits_reached h₀ hr) hag]
      exact hrest
    · rw [hag.read_back ht hd hf'.coherent hi' (by simp [Inst.args])]
      exact hx
  | @next s' t' d hstep hE _ ih =>
    have hs := hf.sits_reached h₀ hr
    have hrest' := hsame hs hag
    have hsteps := hf'.steps hs' hstep hE
    have ht' := hf'.sits_step hs' hsteps
    cases hsteps with
    | @yields i rest inst v e hrest hne hi' hv hg =>
      obtain ⟨hn, hi⟩ := ht.inst_of hi'
      rw [ht.result?, if_neg hn] at hv
      rw [hrest'] at hrest
      have hmove :=
        Frame.step_next_iff.2 (.yields hrest hi hv (hag.gives_back ht hd hf'.coherent hi' hg))
      have hedge : s.rest.tail = [] → E s.block s.block := by
        intro htail
        rw [hrest] at htail
        exact absurd htail hne
      refine .next hmove hedge (ih (hr.next hmove hedge) ht' ⟨hag.block, ?_, hag.activation,
        fun {w} hw => ?_, hag.memory⟩)
      · exact (filter_rest hphi fun j hj =>
          hs.plain j (by rw [hrest]; exact List.mem_cons_of_mem _ hj)).symm
      · by_cases hwv : w = v
        · simp [Frame.set, hwv]
        · simp [Frame.set, hwv, hag.values hw]
    | @stores i rest x y cell e hrest hne hi' hx hy =>
      obtain ⟨hn, hi⟩ := ht.inst_of hi'
      rw [hrest'] at hrest
      have hread : ∀ {v}, v ∈ [x, y] → s.read f v = s'.read f' v :=
        fun hv => hag.read_back ht hd hf'.coherent hi' hv
      have hmove :=
        Frame.step_next_iff.2 (.stores hrest hi ((hread (by simp)).trans hx)
          ((hread (by simp)).trans hy))
      have hedge : s.rest.tail = [] → E s.block s.block := by
        intro htail
        rw [hrest] at htail
        exact absurd htail hne
      refine .next hmove hedge (ih (hr.next hmove hedge) ht' ⟨hag.block, ?_, hag.activation,
        hag.values, fun {c} hc => ?_⟩)
      · exact (filter_rest hphi fun j hj =>
          hs.plain j (by rw [hrest]; exact List.mem_cons_of_mem _ hj)).symm
      · by_cases hcc : c = cell
        · simp [Frame.store, hcc]
        · simp [Frame.store, hcc, hag.memory hc]
    | @enters i inst b xs' t' hrest hi' hg hedge hent =>
      have hjt := hf'.goes_terminator hi' hg
      obtain ⟨hn, hi⟩ := ht.inst_of hi'
      rw [ht.isTerminator hn] at hjt
      rw [hrest'] at hrest
      rw [hag.block] at hedge
      obtain ⟨xs, hxs, -⟩ := ht.insts_of hent.insts
      have hgo : Frame.Goes f s inst b := by
        cases hg with
        | jump => exact .jump
        | branch hc =>
          exact .branch ((hag.read_back ht hd hf'.coherent hi' (by simp [Inst.args])).trans hc)
      obtain ⟨t, henter, hagt⟩ :=
        hag.enter_back (i := i) hf ht hd hf'.coherent hxs hent (hfound hr hrest hjt hedge hxs)
      have hmove := Frame.step_next_iff.2 (.enters hrest hi hgo henter)
      have hedge' : s.rest.tail = [] → E s.block t.block := fun _ => by
        rw [← hagt.block, hent.block]
        exact hedge
      exact .next hmove hedge' (ih (hr.next hmove hedge') ht' hagt)

theorem Func.Serves.thicken {args : List Datum} (h : f'.Serves E entry args d)
    (hf : f.Orderly E entry) (ht : f.Thickens f' D) (hd : f.Idle D)
    (hphi : ∀ i ∈ D, f.flow.isPhi i = true)
    (hfound : ∀ {s₀ s b xs last}, Frame.start f args = .ok s₀ → Reached f E s₀ s → s.rest = [last] →
      f.flow.isTerminator last = true → E s.block b → f.insts b = .ok xs →
      ∀ phi ∈ xs.takeWhile f.flow.isPhi, phi ∈ D →
      ∃ v w e, f.flow.incoming? phi s.block = .ok (some v) ∧ f.flow.result? phi = some w ∧
        s.read f v = .ok e) :
    f.Serves E entry args d := by
  obtain ⟨hf', s', hs', ha⟩ := h
  obtain ⟨hsits', hblock, hact, hvalues, hmemory⟩ := hf'.sits_start (E := E) hs'
  obtain ⟨xs, hxs⟩ := Layout.mem_blocks_iff.1 (entry_mem hf.starts)
  have hxs : f.insts entry = .ok xs := hxs
  have hstart : Frame.start f args = .ok {
      block := entry
      rest := xs
      values := fun v => (f.params.idxOf? v).bind (args[·]?)
      memory := fun _ => .undefined } := by
    unfold Frame.start
    rw [hf.starts, ok_bind, hxs, ok_bind]
    rfl
  have hrest : s'.rest = xs.filter (· ∉ D) := by
    have h₀ := (hf'.atStart hs').insts
    rw [ht.insts_ok hxs] at h₀
    exact (Except.ok.inj h₀).symm
  refine ⟨hf, _, hstart, ?_⟩
  refine Along.thicken hf hf'.toRegular (hf.sits_atStart (hf.atStart hstart)) ht hd hphi
    (fun hr => hfound hstart hr) .start hsits' ha ⟨hblock, hrest, hact, fun {v} _ => ?_,
    fun {c} _ => ?_⟩
  · have hp : f'.params = f.params := ht.params
    rw [hvalues, hp]
  · rw [hmemory]

end Runs

end MiddleEnd
