import MiddleEnd.Proofs.Runs

/-!
# Equations that hold during a run

Wherever an instruction without effects is behind, its result is what the instruction computes from
the values of its operands now: none of them can have changed since it ran. A value is the same as
another one if it can only be there when the other one is, and both then hold the same. Operands may
be replaced by values that are the same, and no run notices.
-/

namespace MiddleEnd

namespace Frame

theorem read_set_ne {f : Func} {s : Frame} {rest : List InstId} {v w : ValueId}
    {d : Datum} (h : v ≠ w) :
    ({ s with rest }.set w d : Frame).read f v = s.read f v := by
  unfold read set
  simp only [if_neg h]

theorem read_congr {f f' : Func} {s t : Frame} {v : ValueId}
    (ho : f'.flow.origin? v = f.flow.origin? v) (hv : t.values v = s.values v) :
    t.read f' v = s.read f v := by
  unfold read
  rw [ho, hv]

theorem Gives.mono {f : Func} {s t : Frame} {i : InstId} {inst : Inst} {d : Datum}
    (h : Gives f s i inst d) (hl : inst.op ≠ .load) (hact : t.activation = s.activation)
    (hargs : ∀ v ∈ inst.args, t.read f v = s.read f v) : Gives f t i inst d := by
  cases h with
  | alloca =>
    rw [← hact]
    exact .alloca
  | load => exact absurd rfl hl
  | unary hop hr hx hd => exact .unary hop hr (by rw [hargs _ (by simp [Inst.args])]; exact hx) hd
  | binary hs hc hx hy hd =>
    exact .binary hs hc (by rw [hargs _ (by simp [Inst.args])]; exact hx)
      (by rw [hargs _ (by simp [Inst.args])]; exact hy) hd

end Frame

def Opcode.isStable (op : Opcode) : Bool := op.isPure || op = .alloca

namespace Func

/-- A frame at the start of a function. -/
structure AtStart (f : Func) (entry : BlockId) (s : Frame) : Prop where
  block : s.block = entry
  insts : f.insts entry = .ok s.rest
  params : ∀ {v d}, s.values v = some d → v ∈ f.flow.params

theorem Regular.atStart {f : Func} {entry : BlockId} (hf : f.Regular entry)
    {args : List Datum} {s : Frame} (hs : Frame.start f args = .ok s) : AtStart f entry s := by
  unfold Frame.start at hs
  rw [hf.starts, ok_bind] at hs
  obtain ⟨rest, hrest, hs⟩ := bind_eq_ok.1 hs
  cases hs
  refine ⟨rfl, hrest, fun {v d} hv => ?_⟩
  obtain ⟨n, hn, -⟩ := Option.bind_eq_some_iff.1 hv
  exact List.mem_of_getElem? ((idxOf?_eq_some hf.coherent.flow.params_nodup).1 hn)

end Func

namespace Func.Orderly

variable {f : Func} {E : BlockId → BlockId → Prop} {entry : BlockId}

theorem sits_atStart (h : f.Orderly E entry) {s : Frame} (hs : AtStart f entry s) :
    s.Sits f E entry := by
  obtain ⟨front, t, he, -, -⟩ := h.shape.ended hs.insts
  refine ⟨by rw [hs.block]; exact Connects.refl E entry, ⟨[], by rw [hs.block]; exact hs.insts⟩,
    h.bare hs.insts, ?_⟩
  rw [he]
  simp

theorem not_behind_start (h : f.Orderly E entry) {s : Frame} (hs : AtStart f entry s) {i : InstId} :
    ¬ f.Behind E entry s.block s.rest i := by
  rintro ⟨home, xs, hhome, hi, hg, hout⟩
  rw [hs.block] at hg hout
  have he := hg.root_eq
  subst he
  rw [hs.insts] at hhome
  cases hhome
  exact hout rfl hi

theorem result_ne (h : f.Orderly E entry) {i j : InstId} {v w : ValueId}
    (hi : f.flow.result? i = some v) (hj : f.flow.result? j = some w) (hne : i ≠ j) : v ≠ w := by
  rintro rfl
  obtain ⟨ty, ho, -⟩ := h.coherent.flow.result_origin hi
  obtain ⟨ty', ho', -⟩ := h.coherent.flow.result_origin hj
  rw [ho] at ho'
  cases ho'
  exact hne rfl

theorem arg_ne_of_behind (h : f.Orderly E entry) {b : BlockId} {pre rest : List InstId}
    {i j : InstId} {inst : Inst} {v w : ValueId} (hb : f.insts b = .ok (pre ++ j :: rest))
    (hi : f.flow.inst? i = some inst) (hphi : inst.op.isPhi = false)
    (hbehind : f.Behind E entry b (j :: rest) i) (hv : v ∈ inst.args)
    (hw : f.flow.result? j = some w) : v ≠ w := by
  rintro rfl
  obtain ⟨home, xs, hhome, hx⟩ := h.coherent.home hi
  obtain ⟨hg, -⟩ := (h.behind_iff hhome hx).1 hbehind
  obtain ⟨pre', post, rfl, -⟩ := split_first hx
  obtain ⟨ty, ho, -⟩ := h.coherent.flow.result_origin hw
  exact h.not_behind_both hhome (h.body hg.connects hhome hi hphi hv ho) hb hbehind

theorem arg_ne_of_enter (h : f.Orderly E entry) {b : BlockId} {xs : List InstId}
    {i j : InstId} {inst : Inst} {v w : ValueId} (hb : f.insts b = .ok xs) (hj : j ∈ xs)
    (hi : f.flow.inst? i = some inst) (hphi : inst.op.isPhi = false) (hix : i ∉ xs)
    (hbehind : f.Behind E entry b [] i) (hv : v ∈ inst.args) (hw : f.flow.result? j = some w) :
    v ≠ w := by
  rintro rfl
  obtain ⟨home, ys, hhome, hy⟩ := h.coherent.home hi
  obtain ⟨hg, -⟩ := (h.behind_iff hhome hy).1 hbehind
  obtain ⟨pre, post, rfl, -⟩ := split_first hy
  obtain ⟨ty, ho, -⟩ := h.coherent.flow.result_origin hw
  obtain ⟨hg', -⟩ := (h.behind_iff hb hj).1 (h.body hg.connects hhome hi hphi hv ho)
  have he := hg.antisymm hg'
  subst he
  rw [hb] at hhome
  cases hhome
  exact hix hy

/-- The equation of a stable instruction holds wherever the instruction is behind. -/
theorem computed (h : f.Orderly E entry) {s₀ s : Frame} (h₀ : AtStart f entry s₀)
    (hr : Reached f E s₀ s) {i : InstId} {inst : Inst} (hi : f.flow.inst? i = some inst)
    (hop : inst.op.isStable = true) (hb : f.Behind E entry s.block s.rest i) :
    ∃ v d, f.flow.result? i = some v ∧ s.values v = some d ∧ Frame.Gives f s i inst d := by
  have hphi : inst.op.isPhi = false := by
    revert hop
    cases inst.op <;> decide
  have hload : inst.op ≠ .load := by
    intro he
    rw [he] at hop
    cases hop
  have hterm : f.flow.isTerminator i = false := by
    rw [DataFlow.isTerminator_of_inst hi]
    revert hop
    cases inst.op <;> decide
  induction hr with
  | start => exact absurd hb (h.not_behind_start h₀)
  | @next s t hr hstep hE ih =>
    have hs := h.sits_reached (h.sits_atStart h₀) hr
    obtain ⟨pre, hpre⟩ := hs.suffix
    cases h.steps hs hstep hE with
    | @yields j rest jnst w e hrest hne hj hw hg =>
      rw [hrest] at hpre ih
      rcases (h.behind_cons hpre hs.connects).1 hb with rfl | hb'
      · rw [hi] at hj
        cases hj
        refine ⟨w, e, hw, by simp [Frame.set], hg.mono hload rfl fun v hv => Frame.read_set_ne ?_⟩
        rintro rfl
        obtain ⟨ty, ho, -⟩ := h.coherent.flow.result_origin hw
        obtain ⟨-, hout⟩ := (h.behind_iff hpre (List.mem_append_right _ List.mem_cons_self)).1
          (h.body hs.connects hpre hi hphi hv ho)
        exact hout rfl List.mem_cons_self
      · obtain ⟨v, d, hv, hd, hgives⟩ := ih hb'
        have hij : i ≠ j := by
          rintro rfl
          obtain ⟨-, hout⟩ := (h.behind_iff hpre (List.mem_append_right _ List.mem_cons_self)).1 hb'
          exact hout rfl List.mem_cons_self
        have hvw := h.result_ne hv hw hij
        refine ⟨v, d, hv, by simp [Frame.set, hvw, hd], hgives.mono hload rfl fun a ha => ?_⟩
        exact Frame.read_set_ne (h.arg_ne_of_behind hpre hi hphi hb' ha hw)
    | @stores j rest x y cell e hrest hne hj hx hy =>
      rw [hrest] at hpre ih
      rcases (h.behind_cons hpre hs.connects).1 hb with rfl | hb'
      · rw [hi] at hj
        cases hj
        cases hop
      · obtain ⟨v, d, hv, hd, hgives⟩ := ih hb'
        exact ⟨v, d, hv, hd, hgives.mono hload rfl fun a ha => rfl⟩
    | @enters j jnst b xs _ hrest hj hg hedge hent =>
      rw [hent.block, hent.rest] at hb
      rw [hrest] at ih
      have hjt := h.goes_terminator hj hg
      rcases (h.behind_enter hs.connects hedge hent.insts hterm hjt).1 hb with hm | ⟨hix, hbs, hbb⟩
      · have := List.all_eq_true.1 List.all_takeWhile i hm
        rw [DataFlow.isPhi_of_inst hi, hphi] at this
        cases this
      · obtain ⟨v, d, hv, hd, hgives⟩ := ih hbs
        have hsub : ∀ phi ∈ xs.takeWhile f.flow.isPhi, phi ∈ xs := fun phi hp =>
          (List.takeWhile_prefix _).subset hp
        have hkeep : t.values v = s.values v := hent.kept v fun phi hp hphiv => by
          exact h.result_ne hphiv hv (fun e => hix (e ▸ hsub phi hp)) rfl
        refine ⟨v, d, hv, hkeep.trans hd, hgives.mono hload hent.activation fun a ha => ?_⟩
        refine Frame.read_congr rfl (hent.kept a fun phi hp hphia => ?_)
        exact h.arg_ne_of_enter hent.insts (hsub phi hp) hi hphi hix hbb ha hphia rfl

theorem stays (h : f.Orderly E entry) {s₀ s : Frame} (h₀ : AtStart f entry s₀)
    (hr : Reached f E s₀ s) {v : ValueId} {e : Datum} (hv : s₀.values v = some e) :
    ∃ d, s.values v = some d := by
  induction hr with
  | start => exact ⟨e, hv⟩
  | @next s t hr hstep hE ih =>
    obtain ⟨d, hd⟩ := ih
    have hset : ∀ w a, ∃ d, (if v = w then some a else s.values v) = some d := by
      intro w a
      split
      · exact ⟨a, rfl⟩
      · exact ⟨d, hd⟩
    cases h.steps (h.sits_reached (h.sits_atStart h₀) hr) hstep hE with
    | @yields _ _ _ w a => exact hset w a
    | stores => exact ⟨d, hd⟩
    | @enters _ _ _ xs _ _ _ _ _ hent =>
      by_cases hphi : ∃ phi ∈ xs.takeWhile f.flow.isPhi, f.flow.result? phi = some v
      · obtain ⟨phi, hm, hres⟩ := hphi
        obtain ⟨-, w, a, -, hw, -, ha⟩ := hent.merged phi hm
        cases hres.symm.trans hw
        exact ⟨a, ha⟩
      · exact ⟨d, (hent.kept v fun phi hm hres => hphi ⟨phi, hm, hres⟩).trans hd⟩

theorem there (h : f.Orderly E entry) {s₀ s : Frame} (h₀ : AtStart f entry s₀)
    (hr : Reached f E s₀ s) {i : InstId} {v : ValueId} (hstore : f.flow.op? i ≠ some .store)
    (hterm : f.flow.isTerminator i = false) (hv : f.flow.result? i = some v)
    (hb : f.Behind E entry s.block s.rest i) : ∃ d, s.values v = some d := by
  induction hr with
  | start => exact absurd hb (h.not_behind_start h₀)
  | @next s t hr hstep hE ih =>
    have hs := h.sits_reached (h.sits_atStart h₀) hr
    obtain ⟨pre, hpre⟩ := hs.suffix
    cases h.steps hs hstep hE with
    | @yields j rest jnst w e hrest hne hj hw hg =>
      rw [hrest] at hpre ih
      by_cases hij : i = j
      · subst hij
        cases hv.symm.trans hw
        exact ⟨e, by simp [Frame.set]⟩
      · obtain ⟨d, hd⟩ := ih (((h.behind_cons hpre hs.connects).1 hb).resolve_left hij)
        exact ⟨d, by simp [Frame.set, h.result_ne hv hw hij, hd]⟩
    | @stores j rest x y cell e hrest hne hj hx hy =>
      rw [hrest] at hpre ih
      refine ih (((h.behind_cons hpre hs.connects).1 hb).resolve_left ?_)
      rintro rfl
      refine hstore ?_
      unfold DataFlow.op?
      rw [hj]
      rfl
    | @enters j jnst b xs _ hrest hj hg hedge hent =>
      rw [hent.block, hent.rest] at hb
      rw [hrest] at ih
      rcases (h.behind_enter hs.connects hedge hent.insts hterm (h.goes_terminator hj hg)).1 hb
        with hm | ⟨hix, hbs, -⟩
      · obtain ⟨-, w, d, -, hw, -, hd⟩ := hent.merged i hm
        cases hv.symm.trans hw
        exact ⟨d, hd⟩
      · obtain ⟨d, hd⟩ := ih hbs
        refine ⟨d, (hent.kept v fun phi hm hres => ?_).trans hd⟩
        exact h.result_ne hres hv (fun e => hix (e ▸ (List.takeWhile_prefix _).subset hm)) rfl

end Func.Orderly

/-- A point of a function that runs along `E` may come to. -/
structure Func.Spot (f : Func) (E : BlockId → BlockId → Prop) (entry b : BlockId)
    (rest : List InstId) : Prop where
  connects : Connects E entry b
  suffix : ∃ pre, f.insts b = .ok (pre ++ rest)

theorem Frame.Sits.spot {f : Func} {E : BlockId → BlockId → Prop} {entry : BlockId} {s : Frame}
    (h : s.Sits f E entry) : f.Spot E entry s.block s.rest :=
  ⟨h.connects, h.suffix⟩

theorem Func.Coherent.avail_iff {f : Func} (h : f.Coherent) {E : BlockId → BlockId → Prop}
    {entry b : BlockId} {rest : List InstId} {i : InstId} {v : ValueId}
    (hi : f.flow.result? i = some v) :
    f.Avail E entry b rest v ↔ f.Behind E entry b rest i := by
  obtain ⟨ty, ho, -⟩ := h.flow.result_origin hi
  constructor
  · exact fun ha => ha ho
  · intro hb ty' i' ho'
    rw [ho] at ho'
    cases ho'
    exact hb

def Func.Older (f : Func) (E : BlockId → BlockId → Prop) (entry : BlockId) (x n : ValueId) : Prop :=
  ∀ ⦃b rest⦄, f.Spot E entry b rest → f.Avail E entry b rest x → f.Avail E entry b rest n

/-- Wherever `x` is there, `n` is there too, and it holds the same in every frame of the run from
`s₀`. The values are looked up in `g`, which may know more constants than `f`. -/
structure Same (f : Func) (E : BlockId → BlockId → Prop) (entry : BlockId) (s₀ : Frame) (g : Func)
    (x n : ValueId) :
    Prop where
  avail : f.Older E entry x n
  read : ∀ {s d}, Reached f E s₀ s → f.Avail E entry s.block s.rest x → s.read g x = .ok d →
    s.read g n = .ok d

namespace Same

variable {f g : Func} {E : BlockId → BlockId → Prop} {entry : BlockId} {s₀ : Frame}
  {x n m : ValueId}

theorem refl (x : ValueId) : Same f E entry s₀ g x x := ⟨fun _ _ _ h => h, fun _ _ h => h⟩

theorem trans (hf : f.Orderly E entry) (h₀ : s₀.Sits f E entry) (h : Same f E entry s₀ g x n)
    (h' : Same f E entry s₀ g n m) : Same f E entry s₀ g x m where
  avail _ _ hc ha := h'.avail hc (h.avail hc ha)
  read hr ha hd := h'.read hr (h.avail (hf.sits_reached h₀ hr).spot ha) (h.read hr ha hd)

theorem extend {g' : Func} (h : Same f E entry s₀ g x n) {o o' : ValueDef}
    (hx : g.flow.origin? x = some o) (hn : g.flow.origin? n = some o')
    (hx' : g'.flow.origin? x = some o) (hn' : g'.flow.origin? n = some o') :
    Same f E entry s₀ g' x n where
  avail := h.avail
  read hr ha hd := by
    rw [Frame.read_congr (f := g) (hx'.trans hx.symm) rfl] at hd
    rw [Frame.read_congr (f := g) (hn'.trans hn.symm) rfl]
    exact h.read hr ha hd

theorem of_unreached {i : InstId} {ty : Ty} {home : BlockId} {xs : List InstId}
    (hf : f.Orderly E entry) (hx : f.flow.origin? x = some (.result ty i))
    (hhome : f.insts home = .ok xs) (hi : i ∈ xs) (hun : ¬ Connects E entry home) (n : ValueId) :
    Same f E entry s₀ g x n where
  avail _ _ _ ha := absurd ((hf.behind_iff hhome hi).1 (ha hx)).1.connects hun
  read _ ha _ := absurd ((hf.behind_iff hhome hi).1 (ha hx)).1.connects hun

end Same

namespace Func.Orderly

variable {f : Func} {E : BlockId → BlockId → Prop} {entry : BlockId} {s₀ s t : Frame}

theorem not_terminator_of_set (h : f.Orderly E entry) (h₀ : AtStart f entry s₀)
    (hr : Reached f E s₀ s) {v : ValueId} {d : Datum} {ty : Ty} {i : InstId}
    (hv : s.values v = some d) (ho : f.flow.origin? v = some (.result ty i)) :
    f.flow.isTerminator i = false := by
  induction hr generalizing d with
  | start =>
    obtain ⟨ty', p, ho'⟩ := h.coherent.flow.param_origin (h₀.params hv)
    rw [ho] at ho'
    cases ho'
  | @next s t hr hstep hE ih =>
    have hres := h.coherent.flow.origin_result ho
    have hs := h.sits_reached (h.sits_atStart h₀) hr
    cases h.steps hs hstep hE with
    | @yields j rest jnst w e hrest hne hj hw hg =>
      by_cases hvw : v = w
      · subst hvw
        have hij : i = j := Classical.byContradiction fun hne => h.result_ne hres hw hne rfl
        rw [hij]
        exact h.gives_not_terminator hj hg
      · exact ih (by simpa [Frame.set, hvw] using hv)
    | stores => exact ih hv
    | @enters j jnst b xs _ hrest hj hg hedge hent =>
      by_cases hphi : ∃ phi ∈ xs.takeWhile f.flow.isPhi, f.flow.result? phi = some v
      · obtain ⟨phi, hp, hpv⟩ := hphi
        have hij : i = phi := Classical.byContradiction fun hne => h.result_ne hres hpv hne rfl
        rw [hij]
        exact not_terminator_of_phi (List.all_eq_true.1 List.all_takeWhile phi hp)
      · rw [hent.kept v fun phi hp hpv => hphi ⟨phi, hp, hpv⟩] at hv
        exact ih hv

theorem avail_of_read (h : f.Orderly E entry) (h₀ : AtStart f entry s₀) (hr : Reached f E s₀ s)
    {last : InstId} (hlast : f.flow.isTerminator last = true) {v : ValueId} {d : Datum}
    (hd : s.read f v = .ok d) (hv : f.Avail E entry s.block [] v) :
    f.Avail E entry s.block [last] v := by
  intro ty i ho
  obtain ⟨home, xs, hhome, hi, hg, -⟩ := hv ho
  refine ⟨home, xs, hhome, hi, hg, fun _ hm => ?_⟩
  obtain rfl := List.mem_singleton.1 hm
  have hset : ∃ e, s.values v = some e := by
    unfold Frame.read at hd
    rw [ho] at hd
    cases hsv : s.values v with
    | none =>
      rw [hsv] at hd
      cases hd
    | some e => exact ⟨e, rfl⟩
  obtain ⟨e, he⟩ := hset
  rw [h.not_terminator_of_set h₀ hr he ho] at hlast
  cases hlast

theorem kept (h : f.Orderly E entry) (hs : s.Sits f E entry) (hstep : Steps f E s t)
    {home : BlockId} {xs : List InstId} {i : InstId} {r v : ValueId}
    (hhome : f.insts home = .ok xs) (hi : i ∈ xs) (hri : f.flow.result? i = some r)
    (hold : f.Older E entry r v) (hbs : f.Behind E entry s.block s.rest i)
    (hbt : f.Behind E entry t.block t.rest i) (hnew : ∀ j, s.rest = [j] → t.block ≠ home) :
    t.values v = s.values v := by
  have hvs : f.Avail E entry s.block s.rest v := hold hs.spot ((h.coherent.avail_iff hri).2 hbs)
  obtain ⟨pre, hpre⟩ := hs.suffix
  cases hstep with
  | @yields j rest jnst w e hrest hne hj hw hg =>
    have hvw : v ≠ w := by
      rintro rfl
      obtain ⟨ty', ho', -⟩ := h.coherent.flow.result_origin hw
      rw [hrest] at hpre hvs
      obtain ⟨-, hout⟩ :=
        (h.behind_iff hpre (List.mem_append_right _ List.mem_cons_self)).1 (hvs ho')
      exact hout rfl List.mem_cons_self
    simp [Frame.set, hvw]
  | stores => rfl
  | @enters j jnst b ys _ hrest hj hg hedge hent =>
    refine hent.kept v fun phi hp hpv => ?_
    have hpys : phi ∈ ys := (List.takeWhile_prefix _).subset hp
    obtain ⟨ty', ho', -⟩ := h.coherent.flow.result_origin hpv
    -- The end of the home of `i` is a point where its result is there, so the phi comes before
    -- that.
    have hcon : Connects E entry home := ((h.behind_iff hhome hi).1 hbs).1.connects
    have hend : f.Spot E entry home [] := ⟨hcon, xs, by rw [List.append_nil]; exact hhome⟩
    have hat : f.Behind E entry home [] i :=
      ⟨home, xs, hhome, hi, hcon.guards_self, fun _ => List.not_mem_nil⟩
    obtain ⟨hg₁, -⟩ :=
      (h.behind_iff hent.insts hpys).1 (hold hend ((h.coherent.avail_iff hri).2 hat) ho')
    obtain ⟨hg₂, -⟩ := (h.behind_iff hhome hi).1 hbt
    rw [hent.block] at hg₂
    exact hnew j hrest (by rw [hent.block]; exact hg₁.antisymm hg₂)

/-- What holds whenever a phi has just been run and is not disturbed while the values older than the
phi stay as they are holds wherever the phi is behind. -/
theorem phi_induct (h : f.Orderly E entry) (h₀ : AtStart f entry s₀) {home : BlockId}
    {xs : List InstId} {phi : InstId} {r : ValueId} (hhome : f.insts home = .ok xs)
    (hphi : phi ∈ xs.takeWhile f.flow.isPhi) (hr : f.flow.result? phi = some r) {P : Frame → Prop}
    (enter : ∀ {s t last}, Reached f E s₀ s → s.rest = [last] → f.flow.isTerminator last = true →
      E s.block home → (f.Behind E entry s.block s.rest phi → P s) →
      Frame.Entered f s t home xs → P t)
    (keep : ∀ {s t}, Reached f E s₀ s → P s →
      (∀ v, f.Older E entry r v → t.values v = s.values v) → P t)
    (hs : Reached f E s₀ s) (hb : f.Behind E entry s.block s.rest phi) : P s := by
  have hmem : phi ∈ xs := (List.takeWhile_prefix _).subset hphi
  have hisphi : f.flow.isPhi phi = true := List.all_eq_true.1 List.all_takeWhile phi hphi
  have hterm := not_terminator_of_phi hisphi
  induction hs with
  | start => exact absurd hb (h.not_behind_start h₀)
  | @next s t hsr hstep hE ih =>
    have hs := h.sits_reached (h.sits_atStart h₀) hsr
    obtain ⟨pre, hpre⟩ := hs.suffix
    have hsteps := h.steps hs hstep hE
    have hcases : (∃ last, s.rest = [last] ∧ t.block = home) ∨
        (f.Behind E entry s.block s.rest phi ∧ ∀ last, s.rest = [last] → t.block ≠ home) := by
      cases hsteps with
      | @yields j rest jnst w e hrest hne hj hw hg =>
        rw [hrest] at hpre
        have hjphi : phi ≠ j := by
          rintro rfl
          rw [hs.plain phi (by rw [hrest]; exact List.mem_cons_self)] at hisphi
          cases hisphi
        refine .inr ⟨?_, fun last hl => ?_⟩
        · rw [hrest]
          exact ((h.behind_cons hpre hs.connects).1 hb).resolve_left hjphi
        · rw [hrest] at hl
          exact absurd (List.cons.inj hl).2 hne
      | @stores j rest x y cell e hrest hne hj hx hy =>
        rw [hrest] at hpre
        have hjphi : phi ≠ j := by
          rintro rfl
          rw [hs.plain phi (by rw [hrest]; exact List.mem_cons_self)] at hisphi
          cases hisphi
        refine .inr ⟨?_, fun last hl => ?_⟩
        · rw [hrest]
          exact ((h.behind_cons hpre hs.connects).1 hb).resolve_left hjphi
        · rw [hrest] at hl
          exact absurd (List.cons.inj hl).2 hne
      | @enters j jnst b ys _ hrest hj hg hedge hent =>
        by_cases he : t.block = home
        · exact .inl ⟨j, hrest, he⟩
        · refine .inr ⟨?_, fun _ _ => he⟩
          rw [hent.block] at he
          rw [hent.block, hent.rest] at hb
          rw [hrest]
          rcases (h.behind_enter hs.connects hedge hent.insts hterm (h.goes_terminator hj hg)).1
            hb with hm | hm
          · exact absurd (h.coherent.layout.one_block hent.insts hhome
              ((List.takeWhile_prefix _).subset hm) hmem) he
          · exact hm.2.1
    rcases hcases with ⟨last, hlast, he⟩ | ⟨hbs, hnew⟩
    · cases hsteps with
      | yields hrest hne => exact absurd (List.cons.inj (hrest.symm.trans hlast)).2 hne
      | stores hrest hne => exact absurd (List.cons.inj (hrest.symm.trans hlast)).2 hne
      | @enters j jnst b ys _ hrest hj hg hedge hent =>
        rw [hent.block] at he
        subst he
        have hys := hent.insts
        rw [hhome] at hys
        cases hys
        exact enter hsr hrest (h.goes_terminator hj hg) hedge ih hent
    · exact keep hsr (ih hbs) fun v hv => h.kept hs hsteps hhome hmem hr hv hbs hb hnew

end Func.Orderly

/-- The same instruction but for operands, which are related one by one. -/
inductive Inst.Matches (R : ValueId → ValueId → Prop) : Inst → Inst → Prop where
  | nullary {op : Opcode} : Matches R (.nullary op) (.nullary op)
  | unary {op : Opcode} {x x' : ValueId} : R x x' → Matches R (.unary op x) (.unary op x')
  | binary {op : Opcode} {x x' y y' : ValueId} :
      R x x' → R y y' → Matches R (.binary op x y) (.binary op x' y')
  | phi {op : Opcode} {args args' : List ValueId} {preds : List BlockId} :
      args.length = args'.length →
      (∀ {n : Nat} {a a'}, args[n]? = some a → args'[n]? = some a' → R a a') →
      Matches R (.phi op args preds) (.phi op args' preds)
  | jump {op : Opcode} {b : BlockId} : Matches R (.jump op b) (.jump op b)
  | branch {op : Opcode} {c c' : ValueId} {t e : BlockId} : R c c' →
      Matches R (.branch op c t e) (.branch op c' t e)
  | call {op : Opcode} {callee : ImportId} {args args' : List ValueId} :
      args.length = args'.length →
      (∀ {n : Nat} {a a'}, args[n]? = some a → args'[n]? = some a' → R a a') →
      Matches R (.call op callee args) (.call op callee args')

namespace Inst.Matches

variable {R R' : ValueId → ValueId → Prop} {i j k : Inst}

theorem op_eq (h : Matches R i j) : j.op = i.op := by
  cases h <;> rfl

theorem blocks_eq (h : Matches R i j) : j.blocks = i.blocks := by
  cases h <;> rfl

theorem forms_eq (h : Matches R i j) : Verify.formFits j = Verify.formFits i := by
  cases h <;> rfl

theorem arg (h : Matches R i j) {n : Nat} {a a' : ValueId} (ha : i.args[n]? = some a)
    (ha' : j.args[n]? = some a') :
    R a a' := by
  cases h with
  | nullary => cases ha
  | unary hx =>
    cases n with
    | zero => cases ha; cases ha'; exact hx
    | succ n => cases ha
  | binary hx hy =>
    match n with
    | 0 => cases ha; cases ha'; exact hx
    | 1 => cases ha; cases ha'; exact hy
    | n + 2 => cases ha
  | phi _ h => exact h ha ha'
  | jump => cases ha
  | branch hc =>
    cases n with
    | zero => cases ha; cases ha'; exact hc
    | succ n => cases ha
  | call _ h => exact h ha ha'

theorem length_eq (h : Matches R i j) : j.args.length = i.args.length := by
  cases h with
  | phi h _ => exact h.symm
  | call h _ => exact h.symm
  | _ => rfl

theorem arg_of_mem (h : Matches R i j) {a' : ValueId} (ha : a' ∈ j.args) :
    ∃ a ∈ i.args, R a a' := by
  obtain ⟨n, hn⟩ := List.mem_iff_getElem?.1 ha
  have hlt : n < i.args.length := by
    rw [← h.length_eq]
    exact (List.getElem?_eq_some_iff.1 hn).1
  have hi : i.args[n]? = some i.args[n] := List.getElem?_eq_getElem hlt
  exact ⟨_, List.mem_of_getElem? hi, h.arg hi hn⟩

theorem edge_of_mem (h : Matches R i j) {a' : ValueId} {p : BlockId} (ha : (a', p) ∈ j.edges) :
    ∃ a, (a, p) ∈ i.edges ∧ R a a' := by
  cases h with
  | @phi op args args' preds hlen hR =>
    obtain ⟨n, hn⟩ := List.mem_iff_getElem?.1 ha
    obtain ⟨ha', hp⟩ := List.getElem?_zip_eq_some.1 hn
    have hlt : n < args.length := by
      rw [hlen]
      exact (List.getElem?_eq_some_iff.1 ha').1
    have hi : args[n]? = some args[n] := List.getElem?_eq_getElem hlt
    exact ⟨_, List.mem_of_getElem? (List.getElem?_zip_eq_some.2 ⟨hi, hp⟩), hR hi ha'⟩
  | _ => cases ha

theorem of_args (hop : ∀ v ∈ i.args, R v v) : Matches R i i := by
  have hlist : ∀ {xs : List ValueId}, (∀ v ∈ xs, R v v) → ∀ {n : Nat} {a a'}, xs[n]? = some a →
      xs[n]? = some a' → R a a' := by
    intro xs h n a a' ha ha'
    rw [ha] at ha'
    cases ha'
    exact h a (List.mem_of_getElem? ha)
  cases i with
  | nullary op => exact .nullary
  | unary op x => exact .unary (hop x (by simp [args]))
  | binary op x y => exact .binary (hop x (by simp [args])) (hop y (by simp [args]))
  | phi op xs preds => exact .phi rfl (hlist hop)
  | jump op b => exact .jump
  | branch op c t e => exact .branch (hop c (by simp [args]))
  | call op f xs => exact .call rfl (hlist hop)

theorem trans (h : Matches R i j) (h' : Matches R' j k) :
    Matches (fun a c => ∃ b, R a b ∧ R' b c) i k := by
  have hlist : ∀ {xs ys zs : List ValueId}, xs.length = ys.length →
      (∀ {n : Nat} {a a'}, xs[n]? = some a → ys[n]? = some a' → R a a') →
      (∀ {n : Nat} {a a'}, ys[n]? = some a → zs[n]? = some a' → R' a a') →
      ∀ {n : Nat} {a c}, xs[n]? = some a → zs[n]? = some c → ∃ b, R a b ∧ R' b c := by
    intro xs ys zs hlen hxy hyz n a c ha hc
    have hlt : n < ys.length := by
      rw [← hlen]
      exact (List.getElem?_eq_some_iff.1 ha).1
    have hy : ys[n]? = some ys[n] := List.getElem?_eq_getElem hlt
    exact ⟨_, hxy ha hy, hyz hy hc⟩
  cases h with
  | nullary => cases h'; exact .nullary
  | unary hx => cases h' with | unary hx' => exact .unary ⟨_, hx, hx'⟩
  | binary hx hy => cases h' with | binary hx' hy' => exact .binary ⟨_, hx, hx'⟩ ⟨_, hy, hy'⟩
  | phi hl hR => cases h' with | phi hl' hR' => exact .phi (hl.trans hl') (hlist hl hR hR')
  | jump => cases h'; exact .jump
  | branch hc => cases h' with | branch hc' => exact .branch ⟨_, hc, hc'⟩
  | call hl hR => cases h' with | call hl' hR' => exact .call (hl.trans hl') (hlist hl hR hR')

theorem imp (h : Matches R i j) (hR : ∀ a ∈ i.args, ∀ a' ∈ j.args, R a a' → R' a a') :
    Matches R' i j := by
  cases h with
  | nullary => exact .nullary
  | unary hx => exact .unary (hR _ (by simp [args]) _ (by simp [args]) hx)
  | binary hx hy => exact .binary (hR _ (by simp [args]) _ (by simp [args]) hx) (hR _
    (by simp [args]) _ (by simp [args]) hy)
  | phi hl h =>
    exact .phi hl fun ha ha' =>
    hR _ (List.mem_of_getElem? ha) _ (List.mem_of_getElem? ha') (h ha ha')
  | jump => exact .jump
  | branch hc => exact .branch (hR _ (by simp [args]) _ (by simp [args]) hc)
  | call hl h =>
    exact .call hl fun ha ha' =>
    hR _ (List.mem_of_getElem? ha) _ (List.mem_of_getElem? ha') (h ha ha')

theorem of_mapArgs {σ : ValueId → ValueId} (h : ∀ v ∈ i.args, R v (σ v)) :
    Matches R i (i.mapArgs σ) := by
  have hlist : ∀ {xs : List ValueId}, (∀ v ∈ xs, R v (σ v)) →
      ∀ {n : Nat} {a a'}, xs[n]? = some a → (xs.map σ)[n]? = some a' → R a a' := by
    intro xs h n a a' ha ha'
    rw [List.getElem?_map, ha] at ha'
    cases ha'
    exact h a (List.mem_of_getElem? ha)
  cases i with
  | nullary op => exact .nullary
  | unary op x => exact .unary (h x (by simp [args]))
  | binary op x y => exact .binary (h x (by simp [args])) (h y (by simp [args]))
  | phi op xs preds => exact .phi (by rw [List.length_map]) (hlist h)
  | jump op b => exact .jump
  | branch op c t e => exact .branch (h c (by simp [args]))
  | call op f xs => exact .call (by rw [List.length_map]) (hlist h)

end Inst.Matches

end MiddleEnd
