import MiddleEnd.Proofs.Refinement

/-!
# Simulation

A function whose blocks are cut, joined or led elsewhere runs like the function it came from: at
matching places the two hold the same data, and wherever the one goes, the other gets in some number
of steps. What has to be shown of an edit is said of single instructions and single edges; that
whole runs return the same follows.
-/

namespace MiddleEnd

namespace Frame

/-- The frames hold the same data for the values that the first function has, wherever they
stand. -/
structure Holds (f : Func) (s s' : Frame) : Prop where
  values : ∀ {v o}, f.flow.origin? v = some o → s'.values v = s.values v
  memory : s'.memory = s.memory
  activation : s'.activation = s.activation

variable {f f' : Func} {s s' t : Frame} {i : InstId} {inst : Inst}

theorem Holds.read (h : s.Holds f s') {v : ValueId} {o : ValueDef} (hv : f.flow.origin? v = some o)
    (ho : f'.flow.origin? v = f.flow.origin? v) : s'.read f' v = s.read f v :=
  read_congr ho (h.values hv)

theorem Holds.operand (h : s.Holds f s') (hc : f.Coherent)
    (hi : f.flow.inst? i = some inst) {v : ValueId} (hv : v ∈ inst.args)
    (ho : f'.flow.origin? v = f.flow.origin? v) : s'.read f' v = s.read f v := by
  obtain ⟨o, hvo⟩ := hc.flow.operand hi hv
  exact h.read hvo ho

theorem Holds.gives (h : s.Holds f s') (hc : f.Coherent)
    (hi : f.flow.inst? i = some inst) {d : Datum}
    (ho : ∀ v ∈ inst.args, f'.flow.origin? v = f.flow.origin? v)
    (hw : resultWidth? f' i = resultWidth? f i) (hg : Gives f s i inst d) :
    Gives f' s' i inst d := by
  have hread : ∀ v ∈ inst.args, s'.read f' v = s.read f v :=
    fun v hv => h.operand hc hi hv (ho v hv)
  cases hg with
  | alloca =>
    rw [← h.activation]
    exact .alloca
  | load hx =>
    rw [← h.memory]
    exact .load ((hread _ (by simp [Inst.args])).trans hx)
  | unary hl hr hx hd =>
    exact .unary hl hr ((hread _ (by simp [Inst.args])).trans hx) (compute_congr hw hd)
  | binary hs hp hx hy hd =>
    exact .binary hs hp ((hread _ (by simp [Inst.args])).trans hx)
      ((hread _ (by simp [Inst.args])).trans hy) (compute_congr hw hd)

theorem Holds.goes (h : s.Holds f s') (hc : f.Coherent)
    (hi : f.flow.inst? i = some inst) {b : BlockId}
    (ho : ∀ v ∈ inst.args, f'.flow.origin? v = f.flow.origin? v) (hg : Goes f s inst b) :
    Goes f' s' inst b := by
  cases hg with
  | jump => exact .jump
  | branch hd =>
    exact .branch ((h.operand hc hi (by simp [Inst.args]) (ho _ (by simp [Inst.args]))).trans hd)

theorem Holds.set (h : s.Holds f s') (rest rest' : List InstId) (v : ValueId) (d : Datum) :
    ({ s with rest }.set v d).Holds f ({ s' with rest := rest' }.set v d) := by
  refine ⟨fun {w o} hw => ?_, h.memory, h.activation⟩
  simp only [Frame.set, h.values hw]

theorem Holds.store (h : s.Holds f s') (rest rest' : List InstId) (cell : Cell) (d : Datum) :
    ({ s with rest }.store cell d).Holds f ({ s' with rest := rest' }.store cell d) := by
  refine ⟨h.values, ?_, h.activation⟩
  funext w
  simp only [Frame.store, h.memory]

/-- Control comes to blocks with the same phis, and what these take reads the same. -/
theorem Holds.comes (h : s.Holds f s') (hc : f'.Coherent) {c c' : BlockId} {xs xs' : List InstId}
    (hent : Entered f s t c xs) (hxs' : f'.insts c' = .ok xs')
    (hphis : xs'.takeWhile f'.flow.isPhi = xs.takeWhile f.flow.isPhi)
    (hresult : ∀ phi ∈ xs.takeWhile f.flow.isPhi, f'.flow.result? phi = f.flow.result? phi)
    (hin : ∀ phi ∈ xs.takeWhile f.flow.isPhi, ∀ v, f.flow.incoming? phi s.block = .ok (some v) →
      ∃ v', f'.flow.incoming? phi s'.block = .ok (some v') ∧ s'.read f' v' = s.read f v)
        (i : InstId) :
    ∃ t', s'.enter f' i c' = .ok t' ∧ t.Holds f t' ∧ t'.block = c' ∧
      t'.rest = xs'.dropWhile f'.flow.isPhi := by
  have hmerge : ∀ phi ∈ xs'.takeWhile f'.flow.isPhi, ∃ p, s'.merged f' s'.block phi = .ok p := by
    intro phi hphi
    rw [hphis] at hphi
    obtain ⟨v, w, d, hv, hw, hd, -⟩ := hent.merged phi hphi
    obtain ⟨v', hv', hread⟩ := hin phi hphi v hv
    exact ⟨(w, d), merged_eq_ok.2 ⟨v', hv', (hresult phi hphi).trans hw, hread.trans hd⟩⟩
  obtain ⟨ps, hps⟩ := mapM_exists hmerge
  have hok : s'.enter f' i c' = .ok _ := enter_eq_ok.2 ⟨xs', ps, hxs', hps, rfl⟩
  obtain ⟨ys, hent'⟩ := enter_spec hc hok
  have hys := hent'.insts
  rw [hxs'] at hys
  cases hys
  refine ⟨_, hok, ⟨fun {w o} ho => ?_, ?_, ?_⟩, hent'.block, hent'.rest⟩
  · by_cases hw : ∃ phi ∈ xs.takeWhile f.flow.isPhi, f.flow.result? phi = some w
    · obtain ⟨phi, hphi, hres⟩ := hw
      obtain ⟨v, w₁, d, hv, hw₁, hd, hset⟩ := hent.merged phi hphi
      obtain ⟨v₁, w₂, d', hv₁, hw₂, hd', hset'⟩ := hent'.merged phi (hphis ▸ hphi)
      rw [hresult phi hphi] at hw₂
      rw [hres] at hw₁ hw₂
      cases hw₁
      cases hw₂
      obtain ⟨v', hv', hread⟩ := hin phi hphi v hv
      rw [hv'] at hv₁
      cases hv₁
      rw [hread, hd] at hd'
      cases hd'
      rw [hset, hset']
    · have hnot : ∀ phi ∈ xs.takeWhile f.flow.isPhi, f.flow.result? phi ≠ some w :=
        fun phi hphi hr => hw ⟨phi, hphi, hr⟩
      rw [hent.kept w hnot, hent'.kept w fun phi hphi => ?_, h.values ho]
      rw [hphis] at hphi
      rw [hresult phi hphi]
      exact hnot phi hphi
  · rw [hent.memory, hent'.memory, h.memory]
  · rw [hent.activation, hent'.activation, h.activation]

theorem Holds.enter (h : s.Holds f s') (hf : f.Coherent) (hc : f'.Coherent) {c c' : BlockId}
    {xs xs' : List InstId} (hent : Entered f s t c xs) (hxs' : f'.insts c' = .ok xs')
    (hphis : xs'.takeWhile f'.flow.isPhi = xs.takeWhile f.flow.isPhi)
    (hresult : ∀ phi ∈ xs.takeWhile f.flow.isPhi, f'.flow.result? phi = f.flow.result? phi)
    (hin : ∀ phi ∈ xs.takeWhile f.flow.isPhi, ∀ v, f.flow.incoming? phi s.block = .ok (some v) →
      f'.flow.incoming? phi s'.block = .ok (some v) ∧ f'.flow.origin? v = f.flow.origin? v)
        (i : InstId) :
    ∃ t', s'.enter f' i c' = .ok t' ∧ t.Holds f t' ∧ t'.block = c' ∧
      t'.rest = xs'.dropWhile f'.flow.isPhi := by
  refine h.comes hc hent hxs' hphis hresult (fun phi hphi v hv => ?_) i
  obtain ⟨hin', ho⟩ := hin phi hphi v hv
  obtain ⟨inst, hinst⟩ := hf.inst_of_mem hent.insts ((List.takeWhile_prefix _).subset hphi)
  exact ⟨v, hin', h.operand hf hinst (Inst.arg_of_edge (DataFlow.edge_of_incoming? hinst hv)) ho⟩

theorem start_eq {f : Func} {entry : BlockId} {xs : List InstId} (hentry : f.entry = .ok entry)
    (hxs : f.insts entry = .ok xs) (args : List Datum) : start f args =
      .ok ⟨entry, none, xs, fun v => (f.params.idxOf? v).bind (args[·]?),
        fun _ => .undefined, 0, 1⟩ := by
  unfold start
  rw [hentry, ok_bind, hxs, ok_bind]
  rfl

end Frame

namespace Func

/-- The instruction reads and yields the same in both functions. -/
structure Carries (f f' : Func) (i : InstId) (inst : Inst) : Prop where
  here : f'.flow.inst? i = some inst
  result : f'.flow.result? i = f.flow.result? i
  width : Frame.resultWidth? f' i = Frame.resultWidth? f i
  origin : ∀ v ∈ inst.args, f'.flow.origin? v = f.flow.origin? v

/-- From places that match, the second function gets to places that match again. A place is a block
and the instructions of it that are still to run. -/
structure Follows (f f' : Func) (E : BlockId → BlockId → Prop) (entry : BlockId)
    (P : BlockId → List InstId → BlockId → List InstId → Prop) : Prop where
  body : ∀ {b pre i rest b' ys inst}, Connects E entry b →
    f.insts b = .ok (pre ++ i :: rest) → rest ≠ [] →
    P b (i :: rest) b' ys → f.flow.inst? i = some inst → inst.op.isPhi = false →
    ∃ ys', ys = i :: ys' ∧ P b rest b' ys' ∧ f.Carries f' i inst
  done : ∀ {b pre i b' ys x}, Connects E entry b → f.insts b = .ok (pre ++ [i]) → P b [i] b' ys →
    f.flow.inst? i = some (.unary .retValue x) →
    ∃ i' ys', ys = i' :: ys' ∧ f'.flow.inst? i' = some (.unary .retValue x) ∧
    f'.flow.origin? x = f.flow.origin? x
  enter : ∀ {s s' t i inst c xs}, s.Sits f E entry → s.rest = [i] → s.Holds f s' →
    P s.block [i] s'.block s'.rest →
    f.flow.inst? i = some inst → Frame.Goes f s inst c → E s.block c → Frame.Entered f s t c xs →
    ∃ n t', s'.run f' n = .ok (.next t') ∧ t.Holds f t' ∧ P t.block t.rest t'.block t'.rest

variable {f f' : Func} {E : BlockId → BlockId → Prop} {entry : BlockId}
  {P : BlockId → List InstId → BlockId → List InstId → Prop}

theorem Follows.step (h : f.Follows f' E entry P) (hf : f.Coherent) {s s' t : Frame}
    (hs : s.Sits f E entry) (hh : s.Holds f s') (hp : P s.block s.rest s'.block s'.rest)
    (hstep : f.Steps E s t) :
    ∃ n t', s'.run f' n = .ok (.next t') ∧ t.Holds f t' ∧ P t.block t.rest t'.block t'.rest := by
  obtain ⟨pre, hpre⟩ := hs.suffix
  cases hstep with
  | @yields i rest inst v d hrest hne hi hv hg =>
    rw [hrest] at hpre hp
    have hphi : inst.op.isPhi = false := by
      rw [← DataFlow.isPhi_of_inst hi]
      exact hs.plain i (by rw [hrest]; exact List.mem_cons_self)
    obtain ⟨ys, hys, hp', hcarry⟩ := h.body hs.connects hpre hne hp hi hphi
    have hmove : s'.step f' = .ok (.next ({ s' with rest := ys }.set v d)) :=
      Frame.step_next_iff.2 (.yields hys hcarry.here (hcarry.result.trans hv)
        (hh.gives hf hi hcarry.origin hcarry.width hg))
    exact ⟨1, _, by rw [Frame.run, hmove]; rfl, hh.set _ _ v d, hp'⟩
  | @stores i rest x y cell d hrest hne hi hx hy =>
    rw [hrest] at hpre hp
    obtain ⟨ys, hys, hp', hcarry⟩ := h.body hs.connects hpre hne hp hi rfl
    have hmove : s'.step f' = .ok (.next ({ s' with rest := ys }.store cell d)) :=
      Frame.step_next_iff.2 (.stores hys hcarry.here
        ((hh.operand hf hi (by simp [Inst.args]) (hcarry.origin x (by simp [Inst.args]))).trans hx)
        ((hh.operand hf hi (by simp [Inst.args]) (hcarry.origin y (by simp [Inst.args]))).trans hy))
    exact ⟨1, _, by rw [Frame.run, hmove]; rfl, hh.store _ _ cell d, hp'⟩
  | enters hrest hi hg hE hent =>
    rw [hrest] at hp
    exact h.enter hs hrest hh hp hi hg hE hent

theorem Follows.run (h : f.Follows f' E entry P) (hf : f.Regular entry) {s s' : Frame} {d : Datum}
    (hs : s.Sits f E entry) (hh : s.Holds f s') (hp : P s.block s.rest s'.block s'.rest)
    (ha : Along f E s d) :
    ∃ n, s'.run f' n = .ok (.done (some d)) := by
  induction ha generalizing s' with
  | @done s d hdone =>
    obtain ⟨i, rest, x, hrest, hi, hx, hu⟩ := Frame.step_done_iff.1 hdone
    obtain ⟨pre, hpre⟩ := hs.suffix
    rw [hrest] at hpre hp
    obtain rfl : rest = [] :=
      (hf.terminator_iff hpre).1 (by rw [DataFlow.isTerminator_of_inst hi]; rfl)
    obtain ⟨i', ys, hys, hi', ho⟩ := h.done hs.connects hpre hp hi
    have hend : s'.step f' = .ok (.done (some d)) :=
      Frame.step_done_iff.2 ⟨i', ys, x, hys, hi',
        (hh.operand hf.coherent hi List.mem_cons_self ho).trans hx, hu⟩
    exact ⟨1, by rw [Frame.run, hend]⟩
  | @next s t d hstep hE _ ih =>
    have hsteps := hf.steps hs hstep hE
    obtain ⟨n, t', hrun, hh', hp'⟩ := h.step hf.coherent hs hh hp hsteps
    obtain ⟨m, hm⟩ := ih (hf.sits_step hs hsteps) hh' hp'
    exact ⟨n + m, by rw [Frame.run_add hrun]; exact hm⟩

theorem Follows.returns (h : f.Follows f' E entry P) {args : List Datum} {d : Datum}
    (hs : f.Serves E entry args d) (hparams : f'.flow.params = f.flow.params) {entry' : BlockId}
    {xs xs' : List InstId} (hentry : f'.entry = .ok entry') (hxs : f.insts entry = .ok xs)
    (hxs' : f'.insts entry' = .ok xs') (hp : P entry xs entry' xs') : f'.Returns args d := by
  obtain ⟨hf, s₀, hs₀, ha⟩ := hs
  obtain ⟨hsits, hblock, hact, hvalues, hmemory⟩ := hf.sits_start (E := E) hs₀
  have hrest : s₀.rest = xs := by
    rw [Frame.start_eq hf.starts hxs] at hs₀
    cases hs₀
    rfl
  have hstart := Frame.start_eq hentry hxs' args
  have hholds : s₀.Holds f ⟨entry', none, xs', fun v => (f'.params.idxOf? v).bind (args[·]?),
      fun _ => .undefined, 0, 1⟩ := by
    refine ⟨fun _ => ?_, hmemory.symm, hact.symm⟩
    rw [hvalues]
    unfold Func.params
    rw [hparams]
  obtain ⟨n, hn⟩ := h.run hf.toRegular hsits hholds (by rw [hblock, hrest]; exact hp) ha
  exact ⟨_, n, hstart, hn⟩

end Func

end MiddleEnd
