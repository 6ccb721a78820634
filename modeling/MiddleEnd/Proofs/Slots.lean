import MiddleEnd.Proofs.Refinement

/-!
# Slots in memory

The address of a slot that is only loaded from and stored to goes nowhere: nothing else ever holds
it. What such a slot holds can then be followed from store to store. If some value is known to hold
the same at every point of a run, it may be read instead of the slot.
-/

namespace MiddleEnd

/-- The slot of an `alloca` whose address is loaded from and stored to, and used for nothing
else. -/
structure Func.Private (f : Func) (i : InstId) (a : ValueId) : Prop where
  slot : f.flow.inst? i = some (.nullary .alloca)
  result : f.flow.result? i = some a
  uses : ∀ {j inst}, f.flow.inst? j = some inst → a ∈ inst.args →
    inst = .unary .load a ∨ ∃ y, y ≠ a ∧ inst = .binary .store a y

/-- Only the result of its `alloca` holds the address of a cell. -/
structure Frame.Secret (s : Frame) (cell : Cell) (a : ValueId) : Prop where
  values : ∀ {v}, s.values v = some (.address cell) → v = a
  memory : ∀ c, s.memory c ≠ .address cell

theorem Frame.compute_ne_address {f : Func} {i : InstId} {op : Opcode} {args : List Datum}
    {cell : Cell} :
    compute f i op args ≠ .ok (.address cell) := by
  intro h
  unfold compute at h
  split at h
  · cases h
  · split at h
    · obtain ⟨w, -, h⟩ := map_eq_ok.1 h
      cases h
    · obtain ⟨w, -, h⟩ := map_eq_ok.1 h
      cases h
    · cases h

section Secret

variable {f : Func} {E : BlockId → BlockId → Prop} {entry : BlockId} {s₀ s t : Frame} {i : InstId}
  {a v : ValueId} {cell : Cell}

theorem Frame.Secret.read (h : s.Secret cell a) (hv : s.read f v = .ok (.address cell)) :
    v = a := by
  unfold Frame.read at hv
  split at hv
  · cases hv
  · cases hv
  · rename_i d hd _ _
    cases hv
    exact h.values hd
  · cases hv

theorem Func.Steps.activation_eq (h : f.Steps E s t) : t.activation = s.activation := by
  cases h with
  | yields => rfl
  | stores => rfl
  | enters _ _ _ _ hent => exact hent.activation

theorem Frame.Secret.step (h : s.Secret ⟨s.activation, i⟩ a) (hp : f.Private i a)
    (hf : f.Regular entry) (hstep : f.Steps E s t) : t.Secret ⟨t.activation, i⟩ a := by
  rw [hstep.activation_eq]
  cases hstep with
  | @yields j rest inst w d hrest hne hj hw hg =>
    refine ⟨fun {v} hv => ?_, h.memory⟩
    by_cases hvw : v = w
    · subst hvw
      simp only [Frame.set, if_true, Option.some.injEq] at hv
      subst hv
      generalize hd : Datum.address ⟨s.activation, i⟩ = d at hg
      cases hg with
      | alloca =>
        cases hd
        rw [hp.result] at hw
        exact (Option.some.inj hw).symm
      | load => exact absurd hd.symm (h.memory _)
      | unary _ _ _ hc =>
        rw [← hd] at hc
        exact absurd hc Frame.compute_ne_address
      | binary _ _ _ _ hc =>
        rw [← hd] at hc
        exact absurd hc Frame.compute_ne_address
    · simp only [Frame.set, if_neg hvw] at hv
      exact h.values hv
  | @stores j rest x y cell d hrest hne hj hx hy =>
    refine ⟨h.values, fun c hc => ?_⟩
    simp only [Frame.store] at hc
    split at hc
    · rw [hc] at hy
      have hya := h.read hy
      rcases hp.uses hj (by rw [← hya]; simp [Inst.args]) with he | ⟨z, hz, he⟩
      · cases he
      · cases he
        exact hz hya
    · exact h.memory c hc
  | @enters j inst b xs t hrest hj hg hE hent =>
    refine ⟨fun {v} hv => ?_, fun c => by rw [hent.memory]; exact h.memory c⟩
    by_cases hphi : ∃ phi ∈ xs.takeWhile f.flow.isPhi, f.flow.result? phi = some v
    · -- A phi merges some other value than the address.
      obtain ⟨phi, hm, hpv⟩ := hphi
      obtain ⟨x, w, d, hx, hw, hd, htw⟩ := hent.merged phi hm
      rw [hpv] at hw
      cases hw
      rw [hv] at htw
      cases htw
      have hxa := h.read hd
      obtain ⟨pinst, hpinst⟩ :=
        hf.coherent.inst_of_mem hent.insts ((List.takeWhile_prefix _).subset hm)
      have hedge := DataFlow.edge_of_incoming? hpinst hx
      cases pinst with
      | phi op args preds =>
        rcases hp.uses hpinst (by rw [← hxa]; exact (List.of_mem_zip hedge).1) with he | ⟨z, -,
          he⟩ <;> cases he
      | _ => cases hedge
    · rw [hent.kept v fun phi hm hpv => hphi ⟨phi, hm, hpv⟩] at hv
      exact h.values hv

theorem Frame.Secret.reached (h₀ : s₀.Secret ⟨s₀.activation, i⟩ a) (hsits : s₀.Sits f E entry)
    (hp : f.Private i a) (hf : f.Regular entry) (hr : Reached f E s₀ s) :
    s.Secret ⟨s.activation, i⟩ a := by
  induction hr with
  | start => exact h₀
  | next hr hstep hE ih => exact ih.step hp hf (hf.steps (hf.sits_reached hsits hr) hstep hE)

theorem Func.Private.read_address (h : f.Private i a) (hf : f.Orderly E entry)
    (h₀ : f.AtStart entry s₀) (hr : Reached f E s₀ s) (hav : f.Avail E entry s.block s.rest a) :
    s.read f a = .ok (.address ⟨s.activation, i⟩) := by
  obtain ⟨v, d, hv, hd, hg⟩ := hf.computed h₀ hr h.slot rfl ((hf.coherent.avail_iff h.result).1 hav)
  rw [h.result] at hv
  cases hv
  obtain ⟨ty, ho, -⟩ := hf.coherent.flow.result_origin h.result
  cases hg with
  | alloca =>
    unfold Frame.read
    rw [ho, hd]

end Secret

namespace Func

/-- The value that the last store to a slot leaves after some instructions. Without one it is what
was there before; nothing is there as long as nothing was ever stored. -/
def lastStored (f : Func) (a : ValueId) (held? : Option ValueId) (xs : List InstId) :
    Option ValueId :=
  xs.foldl
    (fun held? j =>
      match f.flow.inst? j with
      | some (.binary .store x y) => if x = a then some y else held?
      | _ => held?)
    held?

def Stands (f : Func) (σ : ValueId → ValueId) (v : ValueId) : Option ValueId → Prop
  | some w => v = σ w
  | none => ∃ ty, f.flow.origin? v = some (.undef ty)

/-- At every point along `E` it is known which value a slot holds: the one of `start` at the head of
a block, and then the one stored last. Loads of the slot are read by `σ` as what stands for it. -/
structure Tracks (f : Func) (E : BlockId → BlockId → Prop) (entry : BlockId) (a : ValueId)
    (σ : ValueId → ValueId) (start : BlockId → Option ValueId) : Prop where
  first : start entry = none
  flows : ∀ {p b xs ys}, Connects E entry p → E p b → f.insts p = .ok xs → f.insts b = .ok ys →
    (start b = f.lastStored a (start p) xs ∧ ∀ w, start b = some w →
    ∀ j ∈ ys, f.flow.result? j ≠ some (σ w)) ∨
    ∃ phi r x, phi ∈ ys.takeWhile f.flow.isPhi ∧ f.flow.result? phi = some r ∧ start b = some r ∧
      f.flow.incoming? phi p = .ok (some x) ∧ f.Stands σ x (f.lastStored a (start p) xs)
  loads : ∀ {b pre l post r}, Connects E entry b → f.insts b = .ok (pre ++ l :: post) →
    f.flow.inst? l = some (.unary .load a) → f.flow.result? l = some r →
    f.Stands σ (σ r) (f.lastStored a (start b) pre)
  avail : ∀ {b pre rest w}, Connects E entry b → f.insts b = .ok (pre ++ rest) →
    (∀ j ∈ rest, f.flow.isPhi j = false) →
    f.lastStored a (start b) pre = some w → f.Avail E entry b rest (σ w)

/-- All of some private slots are tracked, and `σ` changes nothing but loads of theirs. -/
structure Tracked (f : Func) (E : BlockId → BlockId → Prop) (entry : BlockId)
    (slots : List (InstId × ValueId)) (σ : ValueId → ValueId)
    (start : ValueId → BlockId → Option ValueId) : Prop where
  hidden : ∀ {i a}, (i, a) ∈ slots → f.Private i a
  tracks : ∀ {i a}, (i, a) ∈ slots → f.Tracks E entry a σ (start a)
  moved : ∀ {x}, σ x ≠ x → ∃ i a l, (i, a) ∈ slots ∧ f.flow.inst? l = some (.unary .load a) ∧
    f.flow.result? l = some x

variable {f : Func} {E : BlockId → BlockId → Prop} {entry : BlockId}
  {slots : List (InstId × ValueId)} {σ : ValueId → ValueId}
  {start : ValueId → BlockId → Option ValueId} {a v : ValueId} {held? : Option ValueId}
  {xs ys : List InstId} {j : InstId}

theorem lastStored_append :
    f.lastStored a held? (xs ++ ys) = f.lastStored a (f.lastStored a held? xs) ys := by
  unfold lastStored
  rw [List.foldl_append]

theorem lastStored_cons :
    f.lastStored a held? (j :: xs) = f.lastStored a (f.lastStored a held? [j]) xs := by
  rw [← lastStored_append, List.singleton_append]

theorem lastStored_skip (hne : ∀ y, f.flow.inst? j ≠ some (.binary .store a y)) :
    f.lastStored a held? [j] = held? := by
  unfold lastStored
  rw [List.foldl_cons, List.foldl_nil]
  split
  · rename_i x y he
    rw [if_neg]
    rintro rfl
    exact hne y he
  · rfl

theorem lastStored_other {inst : Inst} (hj : f.flow.inst? j = some inst)
    (hne : ∀ y, inst ≠ .binary .store a y) :
    f.lastStored a held? [j] = held? :=
  lastStored_skip fun y he => hne y (Option.some.inj (hj.symm.trans he))

theorem lastStored_store {y : ValueId} (hj : f.flow.inst? j = some (.binary .store a y)) :
    f.lastStored a held? [j] = some y := by
  unfold lastStored
  rw [List.foldl_cons, List.foldl_nil, hj]
  simp only [if_true]

theorem lastStored_eq_self (h : ∀ j ∈ xs, f.lastStored a held? [j] = held?) :
    f.lastStored a held? xs = held? := by
  induction xs with
  | nil => rfl
  | cons j xs ih =>
    rw [lastStored_cons, h j List.mem_cons_self]
    exact ih fun i hi => h i (List.mem_cons_of_mem _ hi)

theorem lastStored_phi (h : f.flow.isPhi j = true) : f.lastStored a held? [j] = held? := by
  refine lastStored_skip fun y hj => ?_
  rw [DataFlow.isPhi_of_inst hj] at h
  cases h

theorem lastStored_congr {f' : Func}
    (h : ∀ j y, f'.flow.inst? j = some (.binary .store a y) ↔
      f.flow.inst? j = some (.binary .store a y)) :
    f'.lastStored a held? xs = f.lastStored a held? xs := by
  have hone : ∀ (held? : Option ValueId) (j : InstId),
      f'.lastStored a held? [j] = f.lastStored a held? [j] := by
    intro held? j
    by_cases hst : ∃ y, f.flow.inst? j = some (.binary .store a y)
    · obtain ⟨y, hj⟩ := hst
      rw [lastStored_store hj, lastStored_store ((h j y).2 hj)]
    · rw [not_exists] at hst
      rw [lastStored_skip hst, lastStored_skip fun y hj => hst y ((h j y).1 hj)]
  induction xs generalizing held? with
  | nil => rfl
  | cons j xs ih => rw [lastStored_cons, lastStored_cons (f := f), hone, ih]

theorem lastStored_phis (h : ∀ j ∈ xs, f.flow.isPhi j = true) : f.lastStored a held? xs = held? :=
  lastStored_eq_self fun j hj => lastStored_phi (h j hj)

theorem Formed.plain_suffix (hf : f.Formed entry) {b : BlockId} {pre post : List InstId}
    (hb : f.insts b = .ok (pre ++ j :: post)) (hj : f.flow.isPhi j = false) :
    ∀ i ∈ j :: post, f.flow.isPhi i = false := by
  obtain ⟨-, hplain, -⟩ := hf.body_of_block hb
  intro i hi
  refine hplain i ?_
  rw [List.dropWhile_append]
  split
  · rw [List.dropWhile_cons_of_neg (by rw [hj]; simp)]
    exact hi
  · exact List.mem_append_right _ hi

theorem Stands.extend {f' : Func} (h : f.Stands σ v held?)
    (hR : ∀ {o}, f.flow.origin? v = some o → f'.flow.origin? v = some o) : f'.Stands σ v held? := by
  cases held? with
  | some w => exact h
  | none =>
    obtain ⟨ty, ho⟩ := h
    exact ⟨ty, hR ho⟩

theorem Stands.swap {f' : Func} (h : f.Stands σ v held?) {r x : ValueId}
    (hr : ∀ ty, f.flow.origin? r ≠ some (.undef ty))
    (hR : ∀ {o}, f.flow.origin? v = some o → f'.flow.origin? v = some o) :
    f'.Stands (DataFlow.swap r x ∘ σ) (DataFlow.swap r x v) held? := by
  cases held? with
  | some w => exact congrArg (DataFlow.swap r x) h
  | none =>
    obtain ⟨ty, ho⟩ := h
    have hne : v ≠ r := by
      rintro rfl
      exact hr ty ho
    exact ⟨ty, (DataFlow.swap_of_ne hne).symm ▸ hR ho⟩

theorem Stands.avail {b : BlockId} {rest : List InstId} (h : f.Stands σ v held?)
    (hav : ∀ w, held? = some w → f.Avail E entry b rest (σ w)) : f.Avail E entry b rest v := by
  cases held? with
  | none =>
    obtain ⟨ty, ho⟩ := h
    intro ty' i ho'
    rw [ho] at ho'
    cases ho'
  | some w =>
    have he : v = σ w := h
    exact he ▸ hav w rfl

theorem Tracked.older (h : f.Tracked E entry slots σ start) (hf : f.Orderly E entry)
    {i l : InstId} {r : ValueId} (hs : (i, a) ∈ slots) (hl : f.flow.inst? l = some (.unary .load a))
    (hr : f.flow.result? l = some r) :
    f.Older E entry r (σ r) := by
  intro b rest hspot hav ty j ho
  have hb := (hf.coherent.avail_iff hr).1 hav
  obtain ⟨home, xs, hhome, hx⟩ := hf.coherent.home hl
  obtain ⟨hg, -⟩ := (hf.behind_iff hhome hx).1 hb
  obtain ⟨pre, post, rfl, -⟩ := split_first hx
  obtain ⟨pre', hpre'⟩ := hspot.suffix
  have hplain : f.flow.isPhi l = false := by rw [DataFlow.isPhi_of_inst hl]; rfl
  have havail := ((h.tracks hs).loads hg.connects hhome hl hr).avail fun _ =>
    (h.tracks hs).avail hg.connects hhome (hf.plain_suffix hhome hplain)
  exact hf.behind_trans hhome (havail ho) hpre' hb

theorem Tracked.phi_fixed (h : f.Tracked E entry slots σ start) (hf : f.Coherent)
    {phi : InstId} {r : ValueId} (hphi : f.flow.isPhi phi = true)
    (hr : f.flow.result? phi = some r) : σ r = r := by
  refine Classical.byContradiction fun hmoved => ?_
  obtain ⟨_, _, l, -, hl, hlr⟩ := h.moved hmoved
  obtain ⟨ty, ho, -⟩ := hf.flow.result_origin hr
  rw [hf.flow.definer_eq hlr ho, DataFlow.isPhi_of_inst hl] at hphi
  cases hphi

end Func

def Frame.held (f : Func) (σ : ValueId → ValueId) (s : Frame) : Option ValueId → Except Stuck Datum
  | some w => s.read f (σ w)
  | none => .ok .undefined

theorem Func.Stands.read {f : Func} {σ : ValueId → ValueId} {v : ValueId} {held? : Option ValueId}
    (h : f.Stands σ v held?) (s : Frame) : s.read f v = s.held f σ held? := by
  cases held? with
  | none =>
    obtain ⟨ty, ho⟩ := h
    unfold Frame.read
    rw [ho]
    rfl
  | some w =>
    have he : v = σ w := h
    exact he ▸ rfl

theorem Frame.held_congr {f : Func} {σ : ValueId → ValueId} {s t : Frame} {held? : Option ValueId}
    (h : ∀ w, held? = some w → t.read f (σ w) = s.read f (σ w)) :
    t.held f σ held? = s.held f σ held? := by
  cases held? with
  | none => rfl
  | some w => exact h w rfl

/-- What stands for the slots in a frame holds what they hold, and what is read for their loads what
was loaded. -/
structure Frame.Mirrors (f : Func) (E : BlockId → BlockId → Prop) (entry : BlockId)
    (slots : List (InstId × ValueId)) (σ : ValueId → ValueId)
    (start : ValueId → BlockId → Option ValueId) (s : Frame) : Prop where
  holds : ∀ {i a}, (i, a) ∈ slots → ∀ {pre}, f.insts s.block = .ok (pre ++ s.rest) →
    s.held f σ (f.lastStored a (start a s.block) pre) = .ok (s.memory ⟨s.activation, i⟩)
  loads : ∀ {i a}, (i, a) ∈ slots → ∀ {l r d}, f.flow.inst? l = some (.unary .load a) →
    f.flow.result? l = some r →
    f.Behind E entry s.block s.rest l → s.values r = some d → s.read f (σ r) = .ok d

section Mirrors

variable {f : Func} {E : BlockId → BlockId → Prop} {entry : BlockId}
  {slots : List (InstId × ValueId)} {σ : ValueId → ValueId}
  {start : ValueId → BlockId → Option ValueId} {s₀ s t : Frame}

theorem Frame.Mirrors.read (h : s.Mirrors f E entry slots σ start)
    (hT : f.Tracked E entry slots σ start) (hf : f.Coherent) {y : ValueId} {d : Datum}
    (hav : f.Avail E entry s.block s.rest y) (hd : s.read f y = .ok d) :
    s.read f (σ y) = .ok d := by
  by_cases hy : σ y = y
  · rw [hy]
    exact hd
  · obtain ⟨i, a, l, hs, hl, hr⟩ := hT.moved hy
    obtain ⟨ty, ho, -⟩ := hf.flow.result_origin hr
    refine h.loads hs hl hr (hav ho) ?_
    unfold Frame.read at hd
    rw [ho] at hd
    cases hv : s.values y with
    | none =>
      rw [hv] at hd
      cases hd
    | some e =>
      rw [hv] at hd
      cases hd
      rfl

theorem Frame.Mirrors.atStart (hT : f.Tracked E entry slots σ start) (hf : f.Orderly E entry)
    (h₀ : f.AtStart entry s₀) (hmem : ∀ cell, s₀.memory cell = .undefined) :
    s₀.Mirrors f E entry slots σ start := by
  refine ⟨fun {i a} hs {pre} hpre => ?_, fun {i a} hs {l r d} hl hr hb =>
    absurd hb (hf.not_behind_start h₀)⟩
  have hnil : pre = [] := by
    rw [h₀.block, h₀.insts] at hpre
    have := congrArg List.length (Except.ok.inj hpre)
    rw [List.length_append] at this
    exact List.eq_nil_of_length_eq_zero (by omega)
  subst hnil
  show s₀.held f σ (start a s₀.block) = _
  rw [h₀.block, (hT.tracks hs).first, hmem]
  rfl

theorem Func.Avail.ne_result (hf : f.Regular entry) {b : BlockId} {pre rest : List InstId}
    {j : InstId} {v w : ValueId} (hv : f.Avail E entry b (j :: rest) v)
    (hb : f.insts b = .ok (pre ++ j :: rest)) (hw : f.flow.result? j = some w) :
    v ≠ w := by
  rintro rfl
  obtain ⟨ty, ho, -⟩ := hf.coherent.flow.result_origin hw
  obtain ⟨-, hout⟩ := (hf.behind_iff hb (List.mem_append_right _ List.mem_cons_self)).1 (hv ho)
  exact hout rfl List.mem_cons_self

theorem Func.ran_concat {b : BlockId} {pre pre' rest : List InstId} {j : InstId}
    (hpre : f.insts b = .ok (pre ++ j :: rest)) (hpre' : f.insts b = .ok (pre' ++ rest)) :
    pre' = pre ++ [j] := by
  have heq := Except.ok.inj (hpre.symm.trans hpre')
  rw [← List.singleton_append, ← List.append_assoc] at heq
  exact (List.append_cancel_right heq).symm

/-- An instruction that yields a value stores nothing; if it is a load, it yields what stands for
the slot. -/
theorem Frame.Mirrors.yields (h : s.Mirrors f E entry slots σ start)
    (hT : f.Tracked E entry slots σ start) (hf : f.Orderly E entry) (h₀ : f.AtStart entry s₀)
    (hr : Reached f E s₀ s) {j : InstId} {rest : List InstId} {inst : Inst} {w : ValueId}
    {d : Datum} (hrest : s.rest = j :: rest) (hj : f.flow.inst? j = some inst)
    (hw : f.flow.result? j = some w) (hg : Frame.Gives f s j inst d) :
    ({ s with rest }.set w d : Frame).Mirrors f E entry slots σ start := by
  have hs := hf.sits_reached (hf.sits_atStart h₀) hr
  obtain ⟨pre, hpre⟩ := hs.suffix
  have hplain := hs.plain
  rw [hrest] at hpre hplain
  have hread : ∀ {v}, f.Avail E entry s.block (j :: rest) v →
      ({ s with rest }.set w d : Frame).read f v = s.read f v := fun hv =>
    Frame.read_set_ne (hv.ne_result hf.toRegular hpre hw)
  have hheld : ∀ {i a}, (i, a) ∈ slots → ({ s with rest }.set w d : Frame).held f σ
      (f.lastStored a (start a s.block) pre) =
      s.held f σ (f.lastStored a (start a s.block) pre) := fun hslot =>
    Frame.held_congr fun _ hw => hread ((hT.tracks hslot).avail hs.connects hpre hplain hw)
  have hmem : ∀ {i a}, (i, a) ∈ slots →
      s.held f σ (f.lastStored a (start a s.block) pre) =
      .ok (s.memory ⟨s.activation, i⟩) := fun hslot =>
    h.holds hslot (by rw [hrest]; exact hpre)
  refine ⟨fun {i a} hslot {pre'} hpre' => ?_, fun {i a} hslot {l r e} hl hlr hb he => ?_⟩
  · have hnot : ∀ y, inst ≠ .binary .store a y := by
      rintro y rfl
      cases hg with
      | binary hst => exact hst rfl
    rw [Func.ran_concat hpre hpre', Func.lastStored_append, Func.lastStored_other hj hnot]
    exact (hheld hslot).trans (hmem hslot)
  · rcases (hf.behind_cons hpre hs.connects).1 hb with rfl | hb'
    · -- The load itself: what stands for the slot holds what was loaded.
      rw [hl] at hj
      cases hj
      rw [hlr] at hw
      cases hw
      simp only [Frame.set, if_true, Option.some.injEq] at he
      subst he
      rw [((hT.tracks hslot).loads hs.connects hpre hl hlr).read, hheld hslot, hmem hslot]
      cases hg with
      | load hx =>
        have hav := hf.body hs.connects hpre hl rfl (v := a) (by simp [Inst.args])
        rw [(hT.hidden hslot).read_address hf h₀ hr (by rw [hrest]; exact hav)] at hx
        cases hx
        rfl
      | unary hl' => exact absurd rfl hl'
    · have hlj : l ≠ j := by
        rintro rfl
        obtain ⟨-, hout⟩ := (hf.behind_iff hpre (List.mem_append_right _ List.mem_cons_self)).1 hb'
        exact hout rfl List.mem_cons_self
      have hspot : f.Spot E entry s.block (j :: rest) := ⟨hs.connects, pre, hpre⟩
      have hold := hT.older hf hslot hl hlr hspot ((hf.coherent.avail_iff hlr).2 hb')
      rw [hread hold]
      refine h.loads hslot hl hlr (by rw [hrest]; exact hb') ?_
      simpa [Frame.set, hf.result_ne hlr hw hlj] using he

theorem Frame.Mirrors.stores (h : s.Mirrors f E entry slots σ start)
    (hT : f.Tracked E entry slots σ start) (hf : f.Orderly E entry) (h₀ : f.AtStart entry s₀)
    (hr : Reached f E s₀ s) (hsecret : ∀ {i a}, (i, a) ∈ slots → s.Secret ⟨s.activation, i⟩ a)
    {j : InstId} {rest : List InstId} {x y : ValueId} {cell : Cell} {d : Datum}
    (hrest : s.rest = j :: rest) (hj : f.flow.inst? j = some (.binary .store x y))
    (hx : s.read f x = .ok (.address cell)) (hy : s.read f y = .ok d) :
    ({ s with rest }.store cell d : Frame).Mirrors f E entry slots σ start := by
  have hs := hf.sits_reached (hf.sits_atStart h₀) hr
  obtain ⟨pre, hpre⟩ := hs.suffix
  rw [hrest] at hpre
  have havail : ∀ {v}, v ∈ [x, y] → f.Avail E entry s.block s.rest v := fun hv => by
    rw [hrest]
    exact hf.body hs.connects hpre hj rfl hv
  refine ⟨fun {i a} hslot {pre'} hpre' => ?_, fun {i a} hslot {l r e} hl hlr hb he => ?_⟩
  · rw [Func.ran_concat hpre hpre', Func.lastStored_append]
    show s.held f σ (f.lastStored a (f.lastStored a (start a s.block) pre) [j]) =
      .ok (if ⟨s.activation, i⟩ = cell then d else s.memory ⟨s.activation, i⟩)
    by_cases hxa : x = a
    · subst hxa
      rw [(hT.hidden hslot).read_address hf h₀ hr (havail (by simp))] at hx
      cases hx
      rw [Func.lastStored_store hj, if_pos rfl]
      exact h.read hT hf.coherent (havail (by simp)) hy
    · have hnot : ∀ z, Inst.binary .store x y ≠ .binary .store a z := by
        rintro z he
        cases he
        exact hxa rfl
      have hcell : ¬ (⟨s.activation, i⟩ : Cell) = cell := by
        rintro rfl
        exact hxa ((hsecret hslot).read hx)
      rw [Func.lastStored_other hj hnot, if_neg hcell]
      exact h.holds hslot (by rw [hrest]; exact hpre)
  · refine h.loads hslot hl hlr ?_ he
    rw [hrest]
    refine ((hf.behind_cons hpre hs.connects).1 hb).resolve_left ?_
    rintro rfl
    rw [hl] at hj
    cases hj

/-- On the way into a block, either nothing changes or a phi takes the value of what stands for the
slot. -/
theorem Frame.Mirrors.enters (h : s.Mirrors f E entry slots σ start)
    (hT : f.Tracked E entry slots σ start) (hf : f.Orderly E entry) (h₀ : f.AtStart entry s₀)
    (hr : Reached f E s₀ s) {j : InstId} {inst : Inst} {b : BlockId} {ys : List InstId}
    (hrest : s.rest = [j]) (hj : f.flow.inst? j = some inst) (hg : Frame.Goes f s inst b)
    (hE : E s.block b) (hent : Frame.Entered f s t b ys) : t.Mirrors f E entry slots σ start := by
  have hs := hf.sits_reached (hf.sits_atStart h₀) hr
  obtain ⟨pre, hpre⟩ := hs.suffix
  rw [hrest] at hpre
  have hjt := hf.goes_terminator hj hg
  have hnot : ∀ a y, inst ≠ .binary .store a y := by
    rintro a y rfl
    rw [DataFlow.isTerminator_of_inst hj] at hjt
    cases hjt
  refine ⟨fun {i a} hslot {pre'} hpre' => ?_, fun {i a} hslot {l r e} hl hlr hb he => ?_⟩
  · have hp : pre' = ys.takeWhile f.flow.isPhi := by
      obtain ⟨-, -, hsplit⟩ := hf.body_of_block hent.insts
      rw [hent.block, hent.insts, hent.rest] at hpre'
      have heq := hsplit.symm.trans (Except.ok.inj hpre')
      exact (List.append_cancel_right heq).symm
    subst hp
    have hhere : f.insts s.block = .ok (pre ++ s.rest) := by rw [hrest]; exact hpre
    have hmem := h.holds hslot hhere
    have hend : f.lastStored a (start a s.block) (pre ++ [j]) =
        f.lastStored a (start a s.block) pre := by
      rw [Func.lastStored_append, Func.lastStored_other hj (hnot a)]
    rw [Func.lastStored_phis (List.all_eq_true.1 List.all_takeWhile), hent.block, hent.memory,
      hent.activation]
    rcases (hT.tracks hslot).flows hs.connects hE hpre hent.insts with ⟨hout, hne⟩ | ⟨phi, r, x,
      hphi, hres, hb, hin, hst⟩
    · rw [← hmem, ← hend, ← hout]
      refine Frame.held_congr fun w hw => Frame.read_congr rfl (hent.kept _ fun phi hphi => ?_)
      exact hne w hw phi ((List.takeWhile_prefix _).subset hphi)
    · obtain ⟨x', w, d, hx, hw, hd, htw⟩ := hent.merged phi hphi
      rw [hin] at hx
      cases hx
      rw [hres] at hw
      cases hw
      rw [hst.read, hend, hmem] at hd
      cases hd
      obtain ⟨ty, ho, -⟩ := hf.coherent.flow.result_origin hres
      have hfix := hT.phi_fixed hf.coherent (List.all_eq_true.1 List.all_takeWhile phi hphi) hres
      rw [hb]
      show t.read f (σ r) = _
      unfold Frame.read
      rw [hfix, ho, htw]
  · have hlt : f.flow.isTerminator l = false := by
      rw [DataFlow.isTerminator_of_inst hl]
      rfl
    have hbt := hb
    rw [hent.block, hent.rest] at hb
    rcases (hf.behind_enter hs.connects hE hent.insts hlt hjt).1 hb with hm | ⟨hly, hbs, -⟩
    · have := List.all_eq_true.1 List.all_takeWhile l hm
      rw [DataFlow.isPhi_of_inst hl] at this
      cases this
    · obtain ⟨home, xs, hhome, hlx⟩ := hf.coherent.home hl
      have hbs' : f.Behind E entry s.block s.rest l := by
        rw [hrest]
        exact hbs
      have hkeep := hf.kept hs (.enters hrest hj hg hE hent) hhome hlx hlr
        (hT.older hf hslot hl hlr) hbs' hbt
        fun _ _ hbh => by
          rw [hent.block] at hbh
          subst hbh
          rw [hent.insts] at hhome
          cases hhome
          exact hly hlx
      rw [Frame.read_congr rfl hkeep]
      refine h.loads hslot hl hlr hbs' ?_
      rw [← hent.kept r fun phi hphi hpr => ?_]
      · exact he
      · exact hf.result_ne hpr hlr (fun hpl =>
          hly (hpl ▸ (List.takeWhile_prefix _).subset hphi)) rfl

theorem Frame.Mirrors.step (h : s.Mirrors f E entry slots σ start)
    (hT : f.Tracked E entry slots σ start) (hf : f.Orderly E entry) (h₀ : f.AtStart entry s₀)
    (hr : Reached f E s₀ s) (hsecret : ∀ {i a}, (i, a) ∈ slots → s.Secret ⟨s.activation, i⟩ a)
    (hstep : f.Steps E s t) :
    t.Mirrors f E entry slots σ start := by
  cases hstep with
  | yields hrest _ hj hw hg => exact h.yields hT hf h₀ hr hrest hj hw hg
  | stores hrest _ hj hx hy => exact h.stores hT hf h₀ hr hsecret hrest hj hx hy
  | enters hrest hj hg hE hent => exact h.enters hT hf h₀ hr hrest hj hg hE hent

theorem Frame.Mirrors.reached (hT : f.Tracked E entry slots σ start) (hf : f.Orderly E entry)
    (h₀ : f.AtStart entry s₀) (hmem : ∀ cell, s₀.memory cell = .undefined)
    (hsecret : ∀ {i a}, (i, a) ∈ slots → s₀.Secret ⟨s₀.activation, i⟩ a) (hr : Reached f E s₀ s) :
    s.Mirrors f E entry slots σ start := by
  have hsits := hf.sits_atStart h₀
  induction hr with
  | start => exact .atStart hT hf h₀ hmem
  | next hr hstep hE ih =>
    refine ih.step hT hf h₀ hr (fun hslot => ?_) (hf.steps (hf.sits_reached hsits hr) hstep hE)
    exact (hsecret hslot).reached hsits (hT.hidden hslot) hf.toRegular hr

theorem Func.Tracked.same (hT : f.Tracked E entry slots σ start) (hf : f.Orderly E entry)
    (h₀ : f.AtStart entry s₀) (hmem : ∀ cell, s₀.memory cell = .undefined)
    (hsecret : ∀ {i a}, (i, a) ∈ slots → s₀.Secret ⟨s₀.activation, i⟩ a) (x : ValueId) :
    Same f E entry s₀ f x (σ x) := by
  refine ⟨?_, fun hr hav hd => (Frame.Mirrors.reached hT hf h₀ hmem hsecret hr).read hT
    hf.coherent hav hd⟩
  by_cases hx : σ x = x
  · rw [hx]
    exact fun _ _ _ hav => hav
  · obtain ⟨i, a, l, hs, hl, hr⟩ := hT.moved hx
    exact hT.older hf hs hl hr

end Mirrors

end MiddleEnd
