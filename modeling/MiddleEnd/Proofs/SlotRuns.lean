import MiddleEnd.Proofs.FilledPhis
import MiddleEnd.Proofs.Thickening

/-!
# Runs that read phis for slots

Between the function and the one with its slots renamed stands a third one: its phis are filled, but
otherwise it reads what it has always read. A run of the function is one of this third one, since
every phi finds what its slot holds. Along that run the phis mirror the slots, so that loads may be
read as what stands for them.
-/

namespace MiddleEnd

namespace DataFlow

variable {g : DataFlow}

theorem exists_patched (hg : g.Exact) {i : InstId} {inst old : Inst} (hi : g.inst? i = some old)
    (hb : inst.blocks = old.blocks) (hargs : ∀ v ∈ inst.args, ∃ o, g.origin? v = some o)
    (hphi : ∀ op args preds, inst = .phi op args preds → args.length = preds.length) :
    ∃ g', g'.Exact ∧ Patched g g' i inst := by
  obtain ⟨hs₁, hu₁⟩ := unlinkUses_spec (g.putInst i inst) i old.args
  have hargs₁ : ∀ v ∈ inst.args, ∃ o, (old.args.foldl (·.unlinkUse · i) (g.putInst i inst)).origin?
      v = some o := by
    intro v hv
    rw [hs₁.origins]
    exact hargs v hv
  obtain ⟨g', -, hs₂, hu₂⟩ := linkUses_ok (i := i) (fun v => .operandAbsent v i) hargs₁
  have hpatch : Patched g g' i inst := ((putInst_patched g i inst).usersOnly hs₁).usersOnly hs₂
  refine ⟨g', hpatch.exact hg hi hb (hs₂.blockUsers.trans hs₁.blockUsers) (fun v j => ?_)
    hargs hphi, hpatch⟩
  rw [hu₂, hu₁]
  by_cases hj : j = i
  · subst hj
    have hold : (g.putInst j inst).Uses v j ↔ v ∈ old.args := hg.uses_iff_mem hi v
    rw [if_pos rfl, hold]
    simp
  · rw [if_neg hj]
    simp only [hj, and_false, not_false_iff, and_true, or_false]
    exact Iff.rfl

theorem exists_rewired (hg : g.Exact) {ρ : InstId → Inst → Inst}
    (hblocks : ∀ {i inst}, g.inst? i = some inst → (ρ i inst).blocks = inst.blocks)
    (hargs : ∀ {i inst}, g.inst? i = some inst → ∀ v ∈ (ρ i inst).args, ∃ o, g.origin? v = some o)
    (hphi : ∀ {i inst op args preds}, g.inst? i = some inst → ρ i inst = .phi op args preds →
      args.length = preds.length)
    (is : List InstId) : ∃ g', g'.Exact ∧ Rewired g g'
    (fun i inst => if i ∈ is then ρ i inst else inst) ∧
      ∀ v, g'.origin? v = g.origin? v := by
  induction is with
  | nil => exact ⟨g, hg, (Rewired.refl g).congr fun _ _ _ =>
    (if_neg List.not_mem_nil).symm, fun _ => rfl⟩
  | cons i is ih =>
    obtain ⟨g', hg', hR, ho⟩ := ih
    by_cases hdone : i ∈ is ∨ g.inst? i = none
    · refine ⟨g', hg', hR.congr fun j jnst hj => ?_, ho⟩
      by_cases hji : j = i
      · subst hji
        have hm : j ∈ is := hdone.resolve_right (by rw [hj]; exact Option.some_ne_none _)
        rw [if_pos hm, if_pos (List.mem_cons_of_mem _ hm)]
      · simp only [List.mem_cons, hji, false_or]
    · rw [not_or] at hdone
      obtain ⟨hnew, hsome⟩ := hdone
      obtain ⟨inst, hi⟩ := Option.ne_none_iff_exists'.1 hsome
      have hi' : g'.inst? i = some inst := by
        rw [hR.inst?, hi, Option.map_some, if_neg hnew]
      obtain ⟨g'', hg'', hp⟩ := exists_patched hg' hi' (hblocks hi) (fun v hv => by
        rw [ho]
        exact hargs hi v hv) fun op args preds he => hphi hi he
      refine ⟨g'', hg'', (hR.trans (hp.rewired hi')).congr fun j jnst hj => ?_,
        fun v => (hp.origins v).trans (ho v)⟩
      by_cases hji : j = i
      · subst hji
        cases hi.symm.trans hj
        rw [if_pos rfl, if_pos List.mem_cons_self]
      · simp only [List.mem_cons, hji, false_or, if_false]

end DataFlow

/-- No argument is the address of a slot of the call itself. -/
def Foreign (args : List Datum) : Prop := ∀ i, Datum.address ⟨0, i⟩ ∉ args

section Start

variable {f : Func} {args : List Datum} {s₀ : Frame} {i : InstId} {a : ValueId}

theorem Frame.start_memory (hs : Frame.start f args = .ok s₀) (c : Cell) :
    s₀.memory c = .undefined := by
  obtain ⟨block, -, hs⟩ := bind_eq_ok.1 hs
  obtain ⟨rest, -, hs⟩ := bind_eq_ok.1 hs
  cases hs
  rfl

theorem Frame.start_secret (hs : Frame.start f args = .ok s₀) (hargs : Foreign args) :
    s₀.Secret ⟨s₀.activation, i⟩ a := by
  obtain ⟨block, -, hs⟩ := bind_eq_ok.1 hs
  obtain ⟨rest, -, hs⟩ := bind_eq_ok.1 hs
  cases hs
  refine ⟨fun {v} hv => ?_, fun c hc => by cases hc⟩
  obtain ⟨n, -, hn⟩ := Option.bind_eq_some_iff.1 hv
  exact absurd (List.mem_of_getElem? hn) (hargs i)

theorem Func.Orderly.activation_eq {E : BlockId → BlockId → Prop} {entry : BlockId} {s : Frame}
    (hf : f.Orderly E entry) (hs : Frame.start f args = .ok s₀) (hr : Reached f E s₀ s) :
    s.activation = 0 := by
  have hsits := hf.sits_atStart (hf.atStart hs)
  induction hr with
  | start =>
    obtain ⟨block, -, hs⟩ := bind_eq_ok.1 hs
    obtain ⟨rest, -, hs⟩ := bind_eq_ok.1 hs
    cases hs
    rfl
  | next hr hstep hE ih =>
    exact (hf.steps (hf.sits_reached hsits hr) hstep hE).activation_eq.trans ih

end Start

namespace Promotion

open Func

def State.addresses (p : State) : List (InstId × ValueId) :=
  p.slots.map fun slot => (slot.inst, slot.address)

theorem State.mem_addresses {p : State} {i : InstId} {a : ValueId} :
    (i, a) ∈ p.addresses ↔ ∃ slot ∈ p.slots, slot.inst = i ∧ slot.address = a := by
  unfold State.addresses
  simp only [List.mem_map, Prod.mk.injEq]

/-- Slots have been renamed and all phis filled. `base` has the phis, too, but reads what was always
read. -/
structure Filled (f : Func) (entry : BlockId) (t : DominatorTree) (p : State) (g base : DataFlow)
    (τ : ValueId → ValueId) (fill : InstId → List (ValueId × BlockId)) : Prop where
  planted : Planted f entry t p
  rewritten : Rewritten p entry t (p.Met entry) p.Fed g τ fill
  exact : base.Exact
  filled : DataFlow.Rewired p.flow base (p.rewritten id fill)
  renamed : DataFlow.Rewired base g fun i inst => if i ∈ p.added then inst else inst.mapArgs τ
  origins : ∀ v, base.origin? v = g.origin? v

variable {f : Func} {E : BlockId → BlockId → Prop} {entry b : BlockId} {t : DominatorTree}
  {p : State} {g base : DataFlow} {τ : ValueId → ValueId} {fill : InstId → List (ValueId × BlockId)}
  {i : InstId} {inst : Inst} {slot : Slot} {v : ValueId}

theorem Inst.mapArgs_id (inst : Inst) : inst.mapArgs id = inst :=
  Inst.mapArgs_eq_self fun _ _ => rfl

theorem mem_edges_zip {es : List (ValueId × BlockId)} {e : ValueId × BlockId} :
    e ∈ (Inst.phi .phi (es.map (·.1)) (es.map (·.2))).edges ↔ e ∈ es := by
  have hzip : es = (es.map (·.1)).zip (es.map (·.2)) := List.zip_of_prod rfl rfl
  rw [Inst.edges, ← hzip]

theorem Rewritten.blocks_eq (σ : ValueId → ValueId) :
    (p.rewritten σ fill i inst).blocks = (p.rewritten id fill i inst).blocks := by
  unfold State.rewritten
  split
  · rfl
  · rw [Inst.blocks_mapArgs, Inst.blocks_mapArgs]

/-- The phis may be filled without any renaming. -/
theorem Rewritten.exists_filled (hP : Planted f entry t p)
    (h : Rewritten p entry t (p.Met entry) p.Fed g τ fill) :
    ∃ base, Filled f entry t p g base τ fill := by
  have hplain : ∀ {i inst}, i ∉ p.added → p.rewritten id fill i inst = inst := fun hi =>
    (if_neg hi).trans (Inst.mapArgs_id _)
  have hof : ∀ {i inst}, g.inst? i = some inst → ∃ old, p.flow.inst? i = some old ∧
      inst = p.rewritten τ fill i old :=
    fun hi => h.rewired.exists_inst hi
  have hblocks : ∀ {i inst}, g.inst? i = some inst →
      (p.rewritten id fill i ((p.flow.inst? i).getD inst)).blocks = inst.blocks := by
    intro i inst hi
    obtain ⟨old, hold, rfl⟩ := hof hi
    rw [hold, Option.getD_some]
    exact (blocks_eq τ).symm
  have hargs : ∀ {i inst}, g.inst? i = some inst →
      ∀ v ∈ (p.rewritten id fill i ((p.flow.inst? i).getD inst)).args,
      ∃ o, g.origin? v = some o := by
    intro i inst hi v hv
    obtain ⟨old, hold, rfl⟩ := hof hi
    rw [hold, Option.getD_some] at hv
    by_cases hadded : i ∈ p.added
    · obtain ⟨c, slot, hphi⟩ := hP.mem_added.1 hadded
      rw [State.rewritten, if_pos hadded] at hv
      obtain ⟨e, he, rfl⟩ := List.mem_map.1 hv
      obtain ⟨o, ho, -⟩ := DataFlow.ty_eq_ok.1 (h.edge hphi he).1
      exact ⟨o, ho⟩
    · rw [hplain hadded] at hv
      obtain ⟨o, ho⟩ := hP.coherent.flow.operand hold hv
      exact ⟨o, h.rewired.origin? ho⟩
  have hlengths : ∀ {i inst op args preds}, g.inst? i = some inst →
      p.rewritten id fill i ((p.flow.inst? i).getD inst) = .phi op args preds →
      args.length = preds.length := by
    intro i inst op args preds hi he
    obtain ⟨old, hold, rfl⟩ := hof hi
    rw [hold, Option.getD_some] at he
    by_cases hadded : i ∈ p.added
    · rw [State.rewritten, if_pos hadded] at he
      cases he
      rw [List.length_map, List.length_map]
    · rw [hplain hadded] at he
      exact hP.coherent.flow.phi_lengths (he ▸ hold)
  obtain ⟨base, hbase, hR, ho⟩ := DataFlow.exists_rewired h.exact
    (ρ := fun i inst => p.rewritten id fill i ((p.flow.inst? i).getD inst)) hblocks hargs hlengths
    p.func.layout.allInsts
  have hfilled : DataFlow.Rewired p.flow base (p.rewritten id fill) :=
    (h.rewired.trans hR).congr fun i inst hi => by
      rw [if_pos ((hP.coherent.placed i).2 ⟨inst, hi⟩), hi, Option.getD_some]
  refine ⟨base, hP, h, hbase, hfilled, ?_, ho⟩
  exact
    { inst? := fun i => by
        rw [h.rewired.inst?, hfilled.inst?, Option.map_map]
        refine congrArg (fun ρ => (p.flow.inst? i).map ρ) (funext fun inst => ?_)
        rw [Function.comp_apply]
        by_cases hi : i ∈ p.added
        · rw [if_pos hi, State.rewritten, State.rewritten, if_pos hi, if_pos hi]
        · rw [if_neg hi, hplain hi, State.rewritten, if_neg hi]
      result? := fun i => (hR.result? i).symm
      origin? := fun hv => (ho _).symm.trans hv
      added := fun hv => .inl ((ho _).trans hv)
      params := hR.params.symm
      imports := hR.imports.symm
      epoch := hR.epoch.symm
      size := hR.size.symm
      bound := hR.bound.symm }

theorem matches_renamed {R : ValueId → ValueId → Prop} (hrefl : ∀ x ∈ inst.args, R x x)
    (hR : ∀ x ∈ inst.args, R x (τ x)) :
    Inst.Matches R inst (if i ∈ p.added then inst else inst.mapArgs τ) := by
  split
  · exact .of_args hrefl
  · exact .of_mapArgs hR

namespace Filled

variable (h : Filled f entry t p g base τ fill)
include h

theorem inst?_added (hi : i ∈ p.added) :
    base.inst? i = some (.phi .phi ((fill i).map (·.1)) ((fill i).map (·.2))) := by
  rw [h.filled.inst?, h.planted.inst?_added hi, Option.map_some, State.rewritten, if_pos hi]

theorem inst?_old (hi : i ∉ p.added) : base.inst? i = f.flow.inst? i := by
  rw [h.filled.inst?, h.planted.inst?_iff hi]
  have hsame : p.rewritten id fill i = id := by
    funext inst
    rw [State.rewritten, if_neg hi]
    exact Inst.mapArgs_id inst
  rw [hsame, Option.map_id, id]

theorem old_of_plain (hi : base.inst? i = some inst) (hplain : inst.op.isPhi = false) :
    i ∉ p.added ∧ f.flow.inst? i = some inst := by
  have hold : i ∉ p.added := by
    intro hm
    rw [h.inst?_added hm] at hi
    cases hi
    cases hplain
  exact ⟨hold, h.inst?_old hold ▸ hi⟩

theorem isPhi (i : InstId) : base.isPhi i = p.flow.isPhi i :=
  h.filled.isPhi (Rewritten.op_eq h.planted) i

theorem isTerminator (i : InstId) : base.isTerminator i = p.flow.isTerminator i :=
  h.filled.isTerminator (Rewritten.op_eq h.planted) i

theorem coherent : (p.withFlow base).func.Coherent := h.planted.coherent.rewire h.exact h.filled

theorem mem_edges {c q : BlockId} (hphi : (i, slot) ∈ p.phisAt c) :
    q ∈ (fill i).map (·.2) ↔ f.Leads q c := by
  rw [h.rewritten.fed (h.planted.mem_added.2 ⟨c, slot, hphi⟩), ← h.planted.leads_eq]
  constructor
  · rintro ⟨c', slot', hphi', hl⟩
    obtain ⟨rfl, -⟩ := h.planted.phi_unique hphi hphi'
    exact hl
  · exact fun hl => ⟨c, slot, hphi, hl⟩

theorem leads_eq : (p.withFlow base).func.Leads = f.Leads := by
  refine h.planted.leads_of_last h.planted.thinned.alike.blocks.symm
    fun {c front j jnst} hxs hold hj _ => ?_
  have hat := h.planted.heads hxs
  rw [← List.append_assoc] at hat
  exact ⟨_, jnst, hat, (h.inst?_old hold).trans hj, rfl, rfl⟩

theorem avail {rest : List InstId} {o : ValueDef} (hv : f.flow.origin? v = some o)
    (hav : f.Avail E entry b rest v) :
    (p.withFlow base).func.Avail E entry b rest v :=
  (avail_rewire h.filled).2 (h.planted.avail hv hav)

theorem wellShaped : (p.withFlow base).func.WellShaped where
  shaped {c ys} hys := by
    obtain ⟨xs, hxs, rfl⟩ := h.planted.insts_of hys
    obtain ⟨phis, body, last, rfl, hs⟩ := h.planted.regular.shape.shaped hxs
    have hold : ∀ {j}, j ∈ phis ++ (body ++ [last]) → j ∉ p.added := fun hj => by
      obtain ⟨jnst, hjnst⟩ := h.planted.regular.coherent.inst_of_mem hxs hj
      exact h.planted.not_added hjnst
    have hnew : ∀ {j}, j ∈ ((p.phisAt c).map (·.1)).reverse →
        ∃ slot, (j, slot) ∈ p.phisAt c := fun hj => by
      obtain ⟨⟨j, slot⟩, hm, rfl⟩ := List.mem_map.1 (List.mem_reverse.1 hj)
      exact ⟨slot, hm⟩
    have hisPhi : ∀ {j}, j ∉ p.added → base.isPhi j = f.flow.isPhi j := fun hj =>
      (h.isPhi _).trans (h.planted.isPhi_old hj)
    have hisTerminator : ∀ {j}, j ∉ p.added →
        base.isTerminator j = f.flow.isTerminator j := fun hj =>
      (h.isTerminator _).trans (h.planted.thinned.isTerminator hj).symm
    refine ⟨((p.phisAt c).map (·.1)).reverse ++ phis, body, last, by rw [List.append_assoc],
      ?_, ?_, ?_, ?_⟩
    · intro j hj
      rcases List.mem_append.1 hj with hj | hj
      · obtain ⟨slot, hphi⟩ := hnew hj
        exact (h.isPhi j).trans (h.planted.isPhi_added (h.planted.mem_added.2 ⟨c, slot, hphi⟩))
      · exact (hisPhi (hold (List.mem_append_left _ hj))).trans (hs.isPhi j hj)
    · intro j hj
      have hj' := hold (List.mem_append_right _ (List.mem_append_left _ hj))
      obtain ⟨hp, hterm⟩ := hs.plain j hj
      exact ⟨(hisPhi hj').trans hp, (hisTerminator hj').trans hterm⟩
    · refine (hisTerminator (hold ?_)).trans hs.isTerminator
      exact List.mem_append_right _ (List.mem_append_right _ (List.mem_singleton_self _))
    · intro j jnst hj hjnst
      rw [h.leads_eq]
      rcases List.mem_append.1 hj with hj | hj
      · obtain ⟨slot, hphi⟩ := hnew hj
        have hadded := h.planted.mem_added.2 ⟨c, slot, hphi⟩
        cases (h.inst?_added hadded).symm.trans hjnst
        exact ⟨h.rewritten.once hadded, fun q => h.mem_edges hphi⟩
      · have hj' := hold (List.mem_append_left _ hj)
        exact hs.edges hj ((h.inst?_old hj').symm.trans hjnst)
  targets {i inst} hi b hb := by
    change b ∈ p.func.blocks
    rw [show p.func.blocks = f.blocks from h.planted.thinned.alike.blocks.symm]
    by_cases hadded : i ∈ p.added
    · obtain ⟨c, slot, hphi⟩ := h.planted.mem_added.1 hadded
      cases (h.inst?_added hadded).symm.trans hi
      exact ((h.mem_edges hphi).1 hb).mem_blocks
    · exact h.planted.regular.shape.targets ((h.inst?_old hadded).symm.trans hi) b hb

theorem bare : p.phisAt entry = [] := by
  cases hat : p.phisAt entry with
  | nil => rfl
  | cons phi phis =>
    obtain ⟨i, slot⟩ := phi
    have hphi : (i, slot) ∈ p.phisAt entry := hat ▸ List.mem_cons_self
    obtain ⟨-, -, v, hv, -⟩ := h.planted.phi hphi
    obtain ⟨hm, hs⟩ := h.planted.mergedAt_iff.2 ⟨i, hphi, hv⟩
    cases (h.planted.merged_root hs).symm.trans hm

theorem regular : (p.withFlow base).func.Regular entry where
  coherent := h.coherent
  starts := h.planted.starts
  shape := h.wellShaped
  forms {i inst} hi := by
    by_cases hadded : i ∈ p.added
    · cases (h.inst?_added hadded).symm.trans hi
      rfl
    · exact h.planted.regular.forms ((h.inst?_old hadded).symm.trans hi)
  bare {ys} hys i hi := by
    obtain ⟨xs, hxs, rfl⟩ := h.planted.insts_of hys
    rw [h.bare] at hi
    obtain ⟨inst, hinst⟩ := h.planted.regular.coherent.inst_of_mem hxs hi
    have hold := h.planted.not_added hinst
    exact ((h.isPhi i).trans (h.planted.isPhi_old hold)).trans (h.planted.regular.bare hxs i hi)
  noCopies {i x y} hi := by
    exact h.planted.regular.noCopies (h.old_of_plain hi rfl).2

theorem thickens : (p.withFlow base).func.Thickens f p.added where
  insts := h.planted.thinned.insts
  inst? i := by
    split
    · next hadded => 
      have := h.planted.thinned.inst? i
      rwa [if_pos hadded] at this
    · next hadded => exact (h.inst?_old hadded).symm
  result? i := by
    rw [show (p.withFlow base).func.flow.result? i = p.flow.result? i from h.filled.result? i]
    exact h.planted.thinned.result? i
  params := h.planted.thinned.params.trans h.filled.params.symm
  origin? ho := h.filled.origin? (h.planted.origins ho)

theorem lastStored_eq (a : ValueId) (held? : Option ValueId) (xs : List InstId) :
    (p.withFlow base).func.lastStored a held? xs = p.func.lastStored a held? xs := by
  refine lastStored_congr fun j y => ⟨fun hj => ?_, fun hj => ?_⟩
  · obtain ⟨hold, hj⟩ := h.old_of_plain hj rfl
    exact (h.planted.inst?_iff hold).trans hj
  · obtain ⟨hold, hj⟩ := h.planted.old_of_plain hj (fun he => by cases he)
    exact (h.inst?_old hold).trans hj

theorem heldAtEnd_eq (a : ValueId) (b : BlockId) :
    heldAtEnd (p.withFlow base).func t (p.mergedAt a) a b = heldAtEnd p.func t (p.mergedAt a) a b :=
  heldAtEnd_congr (show (p.withFlow base).func.insts = p.func.insts from rfl) (h.lastStored_eq a) b

theorem edge_stands {c q : BlockId} (hphi : (i, slot) ∈ p.phisAt c) (hv : (v, q) ∈ fill i)
    (hq : Connects f.Leads entry q) : (p.withFlow base).func.Stands τ v
      (heldAtEnd (p.withFlow base).func t (p.mergedAt slot.address) slot.address q) := by
  rw [h.heldAtEnd_eq]
  refine ((h.rewritten.edge hphi hv).2.2 (h.planted.leads_eq.symm ▸ hq)).extend fun {o} ho => ?_
  exact (h.origins v).trans ho

theorem incoming {c q : BlockId} (hphi : (i, slot) ∈ p.phisAt c) (hq : Connects f.Leads entry q)
    (hl : f.Leads q c) :
    ∃ x, (p.withFlow base).func.flow.incoming? i q = .ok (some x) ∧
      (p.withFlow base).func.Stands τ x
        (heldAtEnd (p.withFlow base).func t (p.mergedAt slot.address) slot.address q) := by
  have hadded := h.planted.mem_added.2 ⟨c, slot, hphi⟩
  obtain ⟨⟨x, q'⟩, hx, rfl⟩ := List.mem_map.1 ((h.mem_edges hphi).2 hl)
  exact ⟨x, DataFlow.incoming?_of_edge (h.inst?_added hadded) (h.rewritten.once hadded)
    (mem_edges_zip.2 hx), h.edge_stands hphi hx hq⟩

theorem private_here (hs : slot ∈ p.slots) :
    (p.withFlow base).func.Private slot.inst slot.address where
  slot := (h.inst?_old (h.planted.not_added (h.planted.hidden hs).slot)).trans
    (h.planted.hidden hs).slot
  result := (h.filled.result? _).trans (h.planted.hidden_here hs).result
  uses {j jnst} hj hmem := by
    by_cases hadded : j ∈ p.added
    · cases (h.inst?_added hadded).symm.trans hj
      obtain ⟨c, slot', hphi⟩ := h.planted.mem_added.1 hadded
      obtain ⟨e, he, hea⟩ := List.mem_map.1 hmem
      exact absurd hea ((h.rewritten.edge hphi he).2.1 slot hs)
    · exact (h.planted.hidden hs).uses ((h.inst?_old hadded).symm.trans hj) hmem

/-- The phis and what has been put in the place of loads are what the slots hold. -/
theorem resolved : Resolved (p.withFlow base).func entry t p.addresses τ p.mergedAt where
  tree := h.planted.tree.of_leads h.leads_eq
  hidden {i a} hs := by
    obtain ⟨slot, hslot, rfl, rfl⟩ := State.mem_addresses.1 hs
    exact h.private_here hslot
  moved hx := by
    obtain ⟨⟨l, slot, hs, hl, hr⟩, -⟩ := h.rewritten.moved hx
    obtain ⟨hold, hlf⟩ := h.planted.old_of_plain hl (fun he => by cases he)
    exact ⟨slot.inst, slot.address, l, State.mem_addresses.2 ⟨slot, hs, rfl, rfl⟩,
      (h.inst?_old hold).trans hlf, (h.filled.result? l).trans hr⟩
  loads {i a} hs b pre l post r hb hxs hl hr := by
    obtain ⟨slot, hslot, rfl, rfl⟩ := State.mem_addresses.1 hs
    obtain ⟨hold, hlf⟩ := h.old_of_plain hl rfl
    have hl' := (h.planted.inst?_iff hold).trans hlf
    have hb' : Connects p.func.Leads entry b := by
      rw [h.planted.leads_eq, ← h.leads_eq]
      exact hb
    have hst := h.rewritten.loads ⟨b, _, hb', hxs, List.mem_append_right _ List.mem_cons_self⟩
      hb' hxs hslot hl' ((h.filled.result? l).symm.trans hr)
    rw [h.lastStored_eq, held,
      heldWithin_congr (show (p.withFlow base).func.insts = p.func.insts from rfl)
      (h.lastStored_eq slot.address)]
    exact hst.extend fun {o} ho => (h.origins _).trans ho
  root {i a} hs := by
    obtain ⟨slot, hslot, rfl, rfl⟩ := State.mem_addresses.1 hs
    exact h.planted.merged_root hslot
  phis {i a} hs {b v xs} hm hxs := by
    obtain ⟨slot, hslot, rfl, rfl⟩ := State.mem_addresses.1 hs
    obtain ⟨i, hphi, hr⟩ := h.planted.mergedAt_iff.1 ⟨hm, hslot⟩
    have hadded := h.planted.mem_added.2 ⟨b, slot, hphi⟩
    have hisPhi : (p.withFlow base).func.flow.isPhi i = true :=
      (h.isPhi i).trans (h.planted.isPhi_added hadded)
    have hmem : i ∈ xs := by
      obtain ⟨ys, -, rfl⟩ := h.planted.insts_of hxs
      exact List.mem_append_left _ (List.mem_reverse.2 (List.mem_map.2 ⟨_, hphi, rfl⟩))
    refine ⟨i, h.wellShaped.mem_phis hxs hmem hisPhi, (h.filled.result? i).trans hr,
      fun {q} hq hl => ?_⟩
    rw [h.leads_eq] at hq hl
    exact h.incoming hphi hq hl
  quiet {i a} hs {b} hm q hq := by
    obtain ⟨slot, hslot, rfl, rfl⟩ := State.mem_addresses.1 hs
    have hborder : Borders f entry q b := by
      unfold Borders at hq ⊢
      rwa [h.leads_eq] at hq
    obtain ⟨hnone, hsame⟩ := h.planted.quiet hslot hm hborder
    exact ⟨hnone, fun xs held? hxs => (h.lastStored_eq _ _ _).trans (hsame xs held? hxs)⟩

theorem avail_at_end (hf : f.Orderly E entry) {q : BlockId} (hq : Connects E entry q)
    (hs : slot ∈ p.slots) (hst : (p.withFlow base).func.Stands τ v
      (heldAtEnd (p.withFlow base).func t (p.mergedAt slot.address) slot.address q)) :
    (p.withFlow base).func.Avail E entry q [] v := by
  obtain ⟨ys, hys⟩ := h.planted.insts_ok (h.planted.leads_eq.symm ▸ hq.mono hf.edges)
  have hys' : (p.withFlow base).func.insts q = .ok (ys ++ []) := by
    rw [List.append_nil]
    exact hys
  refine hst.avail fun w hw => ?_
  rw [Promotion.heldAtEnd_eq hys', List.append_nil] at hw
  refine h.resolved.avail h.regular.toFormed (fun he => h.leads_eq.symm ▸ hf.edges he) ?_ hq
    (State.mem_addresses.2 ⟨slot, hs, rfl, rfl⟩) hys' (fun _ hj => absurd hj List.not_mem_nil) hw
  intro a b pre j post y hb hxs hj
  obtain ⟨hold, hjf⟩ := h.old_of_plain hj rfl
  obtain ⟨front, hxs'⟩ := h.planted.split hxs hold
  obtain ⟨o, ho⟩ := hf.coherent.flow.operand hjf (v := y) (by simp [Inst.args])
  exact h.avail ho (hf.stored hb hxs' hjf)

theorem orderly (hf : f.Orderly E entry) : (p.withFlow base).func.Orderly E entry where
  toRegular := h.regular
  edges he := by
    rw [h.leads_eq]
    exact hf.edges he
  body {b pre u post inst v} hb hxs hu hplain hv := by
    obtain ⟨hold, huf⟩ := h.old_of_plain hu hplain
    obtain ⟨front, hxs'⟩ := h.planted.split hxs hold
    obtain ⟨o, ho⟩ := hf.coherent.flow.operand huf hv
    exact h.avail ho (hf.body hb hxs' huf hplain hv)
  phis {b xs u inst v q} hq hqb hxs hu huinst hphi hv := by
    by_cases hadded : u ∈ p.added
    · obtain ⟨c, slot, hc⟩ := h.planted.mem_added.1 hadded
      cases (h.inst?_added hadded).symm.trans huinst
      exact h.avail_at_end hf hq (h.planted.merges.1 (List.mem_map_of_mem hc)).1
        (h.edge_stands hc (mem_edges_zip.1 hv) (hq.mono hf.edges))
    · obtain ⟨ys, hys, rfl⟩ := h.planted.insts_of hxs
      have huf := (h.inst?_old hadded).symm.trans huinst
      obtain ⟨o, ho⟩ := hf.coherent.flow.operand huf (Inst.arg_of_edge hv)
      exact h.avail ho (hf.phis hq hqb hys (h.planted.mem_of_old hu hadded) huf hphi hv)

theorem tracked (hf : f.Orderly E entry) : (p.withFlow base).func.Tracked E entry p.addresses τ
    fun a => held (p.withFlow base).func t (p.mergedAt a) a :=
  h.resolved.tracked (h.orderly hf) fun q hq => h.planted.source q (h.leads_eq ▸ hq)

theorem older (hf : f.Orderly E entry) (x : ValueId) :
    (p.withFlow base).func.Older E entry x (τ x) := by
  by_cases hx : τ x = x
  · rw [hx]
    exact fun _ _ _ hav => hav
  · obtain ⟨i, a, l, hs, hl, hr⟩ := (h.tracked hf).moved hx
    exact (h.tracked hf).older (h.orderly hf) hs hl hr

theorem orderly_renamed (hf : f.Orderly E entry) : (p.withFlow g).func.Orderly E entry :=
  (h.orderly hf).rewire h.rewritten.exact h.renamed fun _ =>
    matches_renamed (fun _ _ _ _ _ hav => hav) fun x _ => h.older hf x

theorem regular_renamed : (p.withFlow g).func.Regular entry :=
  h.regular.rewire h.rewritten.exact h.renamed fun _ =>
    matches_renamed (R := fun x y => y = x ∨ y = τ x) (fun _ _ => .inl rfl) fun _ _ => .inr rfl

/-- What takes the place of loads is of the types that they were of, and phis merge values of the
types of their slots. -/
theorem typed_renamed : (p.withFlow g).func.Typed := by
  intro i inst' hi
  have hR := h.rewritten.rewired
  obtain ⟨inst, hinst, rfl⟩ := hR.exists_inst hi
  have hyield : (p.withFlow g).func.yieldTy i = p.func.yieldTy i :=
    yieldTy_congr (f := p.func) h.planted.coherent.flow (hR.result? i) fun _ ho => hR.origin? ho
  rw [hyield]
  by_cases hadded : i ∈ p.added
  · obtain ⟨c, slot, hphi⟩ := h.planted.mem_added.1 hadded
    obtain ⟨-, -, r, hr, ho⟩ := h.planted.phi hphi
    have hty : p.func.yieldTy i = slot.ty := by
      rw [yieldTy, show p.func.flow.result? i = some r from hr, Option.map_some, Option.getD_some]
      exact tyOf_eq ho
    rw [State.rewritten, if_pos hadded, hty]
    intro v hv
    obtain ⟨e, he, rfl⟩ := List.mem_map.1 hv
    obtain ⟨o, ho, hoty⟩ := DataFlow.ty_eq_ok.1 (h.rewritten.edge hphi he).1
    exact (tyOf_eq (f := (p.withFlow g).func) ho).trans hoty
  · have hinstf := (h.planted.inst?_iff hadded).symm.trans hinst
    have hf := h.planted.regular.coherent
    have hyieldf : p.func.yieldTy i = f.yieldTy i :=
      yieldTy_congr hf.flow (h.planted.result?_old hadded) fun _ ho => h.planted.origins ho
    have hrule := h.planted.typed hinstf
    rw [hyieldf]
    rw [State.rewritten, if_neg hadded]
    refine Inst.Matches.rule (R := fun a b => b = τ a) (.of_mapArgs fun _ _ => rfl) ?_
      h.planted.thinned.alike.sig.symm (hR.imports.trans h.planted.thinned.imports.symm) ?_ hrule
    · rintro a b ha rfl
      obtain ⟨o, ho⟩ := hf.flow.operand hinstf ha
      obtain ⟨o', ho', hty⟩ := DataFlow.ty_eq_ok.1 (h.rewritten.typed (h.planted.origins ho))
      rw [tyOf_eq ho, tyOf_eq (f := (p.withFlow g).func) ho', hty]
    · rintro - a b ha rfl hreg
      obtain ⟨o, ho⟩ := hf.flow.operand hinstf ha
      have hfixed : τ a = a := by
        refine h.rewritten.fixed_of_not_load ?_
        rintro l ⟨slot, -, -, hr⟩
        obtain ⟨ty, hra, -⟩ := h.planted.coherent.flow.result_origin hr
        cases (h.planted.origins ho).symm.trans hra
        rw [ho] at hreg
        cases hreg
      rw [hfixed, show (p.withFlow g).func.flow.origin? a = some o from
        hR.origin? (h.planted.origins ho)]
      rwa [ho] at hreg

theorem idle : (p.withFlow base).func.Idle p.added where
  body i hi := not_terminator_of_phi ((h.isPhi i).trans (h.planted.isPhi_added hi))
  unused {i inst} hi hinst v hv j hj hr := by
    obtain ⟨c, slot, hphi⟩ := h.planted.mem_added.1 hj
    obtain ⟨hnone, -, w, hw, how⟩ := h.planted.phi hphi
    cases ((h.filled.result? j).symm.trans hr).symm.trans hw
    obtain ⟨o, ho⟩ := h.planted.regular.coherent.flow.operand ((h.inst?_old hi).symm.trans hinst) hv
    cases (h.planted.origins ho).symm.trans how
    have hrf := h.planted.regular.coherent.flow.origin_result ho
    obtain ⟨jnst, hjnst⟩ := DataFlow.hasInst_of_result hrf
    cases hnone.symm.trans hjnst

theorem found (hf : f.Orderly E entry) {args : List Datum} (hargs : Foreign args) {s₀ s : Frame}
    {last : InstId} (hstart : Frame.start (p.withFlow base).func args = .ok s₀)
    (hr : Reached (p.withFlow base).func E s₀ s) (hrest : s.rest = [last])
    (hlast : base.isTerminator last = true) (hE : E s.block b) (hphi : (i, slot) ∈ p.phisAt b) :
    ∃ v w e, base.incoming? i s.block = .ok (some v) ∧ base.result? i = some w ∧
      s.read (p.withFlow base).func v = .ok e := by
  have hG := h.orderly hf
  have hs := hG.sits_reached (hG.sits_atStart (hG.atStart hstart)) hr
  have hslot : (slot.inst, slot.address) ∈ p.addresses :=
    State.mem_addresses.2 ⟨slot, (h.planted.merges.1 (List.mem_map_of_mem hphi)).1, rfl, rfl⟩
  obtain ⟨x, hx, hst⟩ := h.incoming hphi (hs.connects.mono hf.edges) (hf.edges hE)
  obtain ⟨-, -, w, hw, -⟩ := h.planted.phi hphi
  have hm := Frame.Mirrors.reached (h.tracked hf) hG (hG.atStart hstart) (Frame.start_memory hstart)
    (fun _ => Frame.start_secret hstart hargs) hr
  obtain ⟨pre, hpre⟩ := hs.suffix
  have hend := hm.holds hslot hpre
  obtain ⟨jnst, hjnst⟩ := DataFlow.inst_of_isTerminator hlast
  refine ⟨x, w, _, hx, (h.filled.result? i).trans hw, ((hst.read s).trans ?_).trans hend⟩
  rw [Promotion.heldAtEnd_eq hpre, hrest, lastStored_append, lastStored_other hjnst]
  rintro y rfl
  rw [DataFlow.isTerminator_of_inst hjnst] at hlast
  cases hlast

theorem serves {args : List Datum} {d : Datum} (hargs : Foreign args)
    (hs : f.Serves E entry args d) :
    (p.withFlow g).func.Serves E entry args d := by
  have hG := h.orderly hs.1
  have hthick : (p.withFlow base).func.Serves E entry args d := by
    refine hs.thicken hG h.thickens h.idle (fun i hi => ?_)
      fun {s₀ s b xs last} hstart hr hrest hlast hE hxs phi hphi hadded => ?_
    · exact (h.isPhi i).trans (h.planted.isPhi_added hi)
    · obtain ⟨c, slot, hc⟩ := h.planted.mem_added.1 hadded
      obtain ⟨ys, hys, hmem⟩ := h.planted.insts_phi hc
      obtain rfl := h.coherent.layout.one_block hys hxs hmem ((List.takeWhile_prefix _).subset hphi)
      exact h.found hs.1 hargs hstart hr hrest hlast hE hc
  refine hthick.rewire h.rewritten.exact h.renamed fun {s₀} hstart {i inst} hi => ?_
  have hsame := (h.tracked hs.1).same hG (hG.atStart hstart) (Frame.start_memory hstart) fun _ =>
    Frame.start_secret hstart hargs
  refine matches_renamed (fun x _ => Same.refl x) fun x hx => ?_
  by_cases hmoved : τ x = x
  · rw [hmoved]
    exact Same.refl x
  · obtain ⟨⟨l, slot, -, -, hr⟩, -⟩ := h.rewritten.moved hmoved
    obtain ⟨ty, ho, -⟩ := h.planted.coherent.flow.result_origin hr
    obtain ⟨o', ho', -⟩ := DataFlow.ty_eq_ok.1 (h.rewritten.typed ho)
    have hob := h.filled.origin? ho
    exact (hsame x).extend hob ((h.origins _).trans ho') ((h.origins x).symm.trans hob) ho'

end Filled

end Promotion

end MiddleEnd
