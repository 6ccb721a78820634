import MiddleEnd.Proofs.IteratedFrontiers
import MiddleEnd.Proofs.PhiLowering
import MiddleEnd.Proofs.BuilderHistories
import MiddleEnd.Transform.Promotion

/-!
# Where phis for slots go

For every slot one phi is added at the head of each block where paths with different stores to it
meet, and nothing else changes. A phi for a slot of type `void` yields nothing, and asking for its
value is a fault: such slots must have no place where paths meet.
-/

namespace MiddleEnd

/-- A function with one more instruction, without that one as well. -/
theorem Func.Inserted.thinned {f f' g : Func} {D : List InstId} {i : InstId} {inst : Inst} {ty : Ty}
    {v? : Option ValueId} {c : BlockId} {pre post : List InstId}
    (h : f.Inserted f' i inst ty v? c pre post) (ht : f.Thinned g D) (hf : f.Coherent) :
    f'.Thinned g (D ++ [i]) := by
  have hfresh : f.flow.inst? i = none := h.grown.fresh
  have hnone : f.flow.result? i = none := by
    cases hr : f.flow.result? i with
    | none => rfl
    | some v =>
      obtain ⟨inst', hi⟩ := DataFlow.hasInst_of_result hr
      rw [hfresh] at hi
      cases hi
  have hout : ∀ {d xs}, f.insts d = .ok xs → i ∉ xs := by
    intro d xs hxs hi
    obtain ⟨inst', hi⟩ := hf.inst_of_mem hxs hi
    rw [hfresh] at hi
    cases hi
  have hfilter : ∀ {xs : List InstId}, i ∉ xs → xs.filter (· ∉ D ++ [i]) = xs.filter (· ∉ D) := by
    intro xs hi
    refine List.filter_congr fun j hj => ?_
    have hne : j ≠ i := fun e => hi (e ▸ hj)
    simp [hne]
  have hmem : ∀ {j}, j ∈ D ++ [i] ↔ j ∈ D ∨ j = i := by simp
  refine
    { insts := fun d => ?_
      inst? := fun j => ?_
      result? := fun j => ?_
      origin? := fun {w o} ho hn => ?_
      added := fun {w o} ho => ?_
      params := ht.params.trans h.grown.params.symm
      imports := ht.imports.trans h.grown.imports.symm
      alike := ⟨ht.alike.name.trans h.alike.name.symm, ht.alike.sig.trans h.alike.sig.symm,
        ht.alike.blockTable.trans h.alike.blockTable.symm,
        ht.alike.blocks.trans h.alike.blocks.symm⟩ }
  · by_cases hd : d = c
    · subst hd
      have hin := hout h.before
      rw [ht.insts, h.before, h.here, map_ok, map_ok, List.filter_append, List.filter_append,
        List.filter_cons_of_neg (by simp), hfilter fun hi => hin (List.mem_append_left _ hi),
        hfilter fun hi => hin (List.mem_append_right _ hi)]
    · rw [ht.insts, h.others hd]
      cases hxs : f.insts d with
      | error e => rfl
      | ok xs => rw [map_ok, map_ok, hfilter (hout hxs)]
  · rw [ht.inst?, h.grown.inst?]
    by_cases hj : j = i
    · rw [if_pos (hmem.2 (.inr hj)), hj, hfresh, ite_self]
    · rw [if_neg hj]
      simp only [hmem, hj, or_false]
  · rw [ht.result?, h.grown.result?]
    by_cases hj : j = i
    · rw [if_pos (hmem.2 (.inr hj)), hj, hnone, ite_self]
    · rw [if_neg hj]
      simp only [hmem, hj, or_false]
  · have hvw : ¬ v? = some w := fun e => by
      refine hn i (hmem.2 (.inr rfl)) ?_
      rw [h.grown.result?, if_pos rfl, e]
    rw [h.grown.origin?, if_neg hvw] at ho
    refine ht.origin? ho fun j hj hjw => hn j (hmem.2 (.inl hj)) ?_
    rw [h.grown.result?, if_neg, hjw]
    rintro rfl
    rw [hnone] at hjw
    cases hjw
  · refine (ht.added ho).imp_left fun ho' => ?_
    rw [h.grown.origin?, if_neg, ho']
    intro hvw
    rw [h.grown.value_fresh w hvw] at ho'
    cases ho'

theorem DataFlow.Grown.setName {g g' : DataFlow} {i : InstId} {inst : Inst} {ty : Ty}
    {v? : Option ValueId} (h : Grown g g' i inst ty v?) (v : ValueId) (name : String) :
    Grown g (g'.setName v name) i inst ty v? := by
  obtain ⟨hinsts, hvalues, hparams, himports, -, hepoch⟩ := clearName_spec g' v
  have hinst : ∀ j, (g'.setName v name).inst? j = g'.inst? j := inst?_of_insts hinsts
  have hresult : ∀ j, (g'.setName v name).result? j = g'.result? j := by
    intro j
    show ((g'.clearName v).2.insts.get? j).bind (·.result?) = g'.result? j
    rw [hinsts]
    rfl
  have horigin : ∀ w, (g'.setName v name).origin? w = g'.origin? w := by
    intro w
    show ((g'.clearName v).2.values.get? w).map (·.origin) = g'.origin? w
    rw [hvalues]
    rfl
  exact
    { fresh := h.fresh
      inst? := fun j => (hinst j).trans (h.inst? j)
      result? := fun j => (hresult j).trans (h.result? j)
      origin? := fun w => (horigin w).trans (h.origin? w)
      value_fresh := h.value_fresh
      yields := h.yields
      params := hparams.trans h.params
      imports := himports.trans h.imports
      epoch := fun ht => hepoch.trans (h.epoch ht) }

theorem Builder.phiTyped_inserts {b : Builder} (hb : b.func.Coherent) {c : BlockId}
    {pre post : List InstId} (hc : b.func.insts c = .ok (pre ++ post)) (hgap : b.pos.Gap c pre post)
    (name? : Option String) (ty : Ty) :
    ∃ i b' v?, b.phiTyped name? ty [] [] = (do .ok (← b'.flow.result i, b')) ∧ b'.func.Coherent ∧
      b.func.Inserted b'.func i (.phi .phi [] []) ty v? c pre post := by
  have hlengths : ∀ op args preds, Inst.phi .phi [] [] = .phi op args preds →
      args.length = preds.length := by
    intro op args preds he
    cases he
    rfl
  obtain ⟨i, b₁, v?, hrun, hcoh, hins, -⟩ :=
    Builder.insert_ok hb ty (fun _ hv => absurd hv List.not_mem_nil) hlengths hc hgap
  have hemit : ∃ b', b.emit name? (.phi .phi [] []) ty = .ok (i, b') ∧ b'.func.Coherent ∧
      b.func.Inserted b'.func i (.phi .phi [] []) ty v? c pre post := by
    unfold Builder.emit
    rw [hrun, ok_bind]
    dsimp only
    split
    · rename_i name v _
      have hnamed := DataFlow.Enriched.setName hcoh.flow v name
      exact ⟨_, rfl, hcoh.enrich hnamed, hins.grown.setName v name, { hins.alike with },
        hins.before, hins.here, hins.others⟩
    · exact ⟨b₁, rfl, hcoh, hins⟩
  obtain ⟨b', hemit, hcoh', hins'⟩ := hemit
  refine ⟨i, b', v?, ?_, hcoh', hins'⟩
  unfold Builder.phiTyped Builder.emitValue
  rw [if_neg (by simp), hemit]
  rfl

namespace Promotion

namespace State

open Func

/-- The phis added to a block, with their slots, in the order of their addition. -/
def phisAt (s : State) (c : BlockId) : List (InstId × Slot) := (s.phis.get? c).getD []

/-- Compared with a function, every block has phis at its head for some slots, and that is all. -/
structure Placed (f : Func) (slots : List Slot) (accesses : List InstId)
    (M : BlockId → List Slot) (s : State) :
    Prop where
  coherent : s.func.Coherent
  slots : s.slots = slots
  accesses : s.accesses = accesses
  blocks : s.func.blocks = f.blocks
  heads : ∀ {c xs}, f.insts c = .ok xs →
    s.func.insts c = .ok (((s.phisAt c).map (·.1)).reverse ++ xs)
  here : ∀ c, (s.phisAt c).map (·.2) = M c
  phi : ∀ {c i slot}, (i, slot) ∈ s.phisAt c → f.flow.inst? i = none ∧
    s.flow.inst? i = some (.phi .phi [] []) ∧
    ∃ v, s.flow.result? i = some v ∧ s.flow.origin? v = some (.result slot.ty i)
  others : ∀ i, (∀ c slot, (i, slot) ∉ s.phisAt c) → s.flow.inst? i = f.flow.inst? i
  listed : ∀ i, i ∈ s.added ↔ ∃ c slot, (i, slot) ∈ s.phisAt c
  apart : s.added.Nodup
  thinned : s.func.Thinned f s.added
  origins : ∀ {v o}, f.flow.origin? v = some o → s.flow.origin? v = some o

variable {f : Func} {slots : List Slot} {accesses : List InstId} {M : BlockId → List Slot}
  {s : State} {slot : Slot} {merging : List BlockId} {entry : BlockId} {t : DominatorTree}

theorem Placed.inst?_old (h : Placed f slots accesses M s) {i : InstId} {inst : Inst}
    (hi : f.flow.inst? i = some inst) :
    s.flow.inst? i = some inst := by
  rw [h.others i fun c slot hp => ?_, hi]
  rw [(h.phi hp).1] at hi
  cases hi

def addSlot (M : BlockId → List Slot) (merging : List BlockId) (slot : Slot) (c : BlockId) :
    List Slot :=
  if c ∈ merging then M c ++ [slot] else M c

theorem Placed.congr {N : BlockId → List Slot} (h : Placed f slots accesses M s)
    (hN : ∀ c, M c = N c) :
    Placed f slots accesses N s :=
  { h with here := fun c => (h.here c).trans (hN c) }

theorem mem_phisAt_add {s' : State} {c d : BlockId} {i j : InstId} {slot' : Slot}
    (hat : ∀ d, s'.phisAt d = if c = d then s.phisAt c ++ [(i, slot)] else s.phisAt d) :
    (j, slot') ∈ s'.phisAt d ↔ (j, slot') ∈ s.phisAt d ∨ (d = c ∧ j = i ∧ slot' = slot) := by
  rw [hat]
  by_cases hd : c = d
  · subst hd
    simp
  · simp [hd, Ne.symm hd]

theorem Placed.ne_fresh (h : Placed f slots accesses M s) {i j : InstId}
    (hi : s.flow.inst? i = none) {c : BlockId} (hj : (j, slot) ∈ s.phisAt c) : j ≠ i := by
  rintro rfl
  cases hi.symm.trans (h.phi hj).2.1

theorem Placed.phi_grow {g : DataFlow} (h : Placed f slots accesses M s) {i j : InstId} {ty : Ty}
    {v? : Option ValueId} (hg : DataFlow.Grown s.flow g i (.phi .phi [] []) ty v?) {c : BlockId}
    (hj : (j, slot) ∈ s.phisAt c) :
    g.inst? j = some (.phi .phi [] []) ∧ ∃ v, g.result? j = some v ∧
    g.origin? v = some (.result slot.ty j) := by
  obtain ⟨-, hphi, v, hv, ho⟩ := h.phi hj
  have hne : j ≠ i := h.ne_fresh hg.fresh hj
  have hnew : ¬ v? = some v := fun e => by
    cases ho.symm.trans (hg.value_fresh v e)
  exact ⟨(hg.inst? j).trans ((if_neg hne).trans hphi), v,
    (hg.result? j).trans ((if_neg hne).trans hv), (hg.origin? v).trans ((if_neg hnew).trans ho)⟩

/-- One more phi at the head of a block. -/
theorem Placed.grow {s' : State} (h : Placed f slots accesses (addSlot M merging slot) s)
    {c : BlockId} {xs : List InstId} (hxs : f.insts c = .ok xs) (hnew : c ∉ merging)
    (hcoh : s'.func.Coherent) {i : InstId} {v : ValueId}
    (hins : s.func.Inserted s'.func i (.phi .phi [] []) slot.ty (some v) c []
      (((s.phisAt c).map (·.1)).reverse ++ xs))
    (hslots : s'.slots = s.slots) (haccesses : s'.accesses = s.accesses)
    (hadded : s'.added = s.added ++ [i])
    (hat : ∀ d, s'.phisAt d = if c = d then s.phisAt c ++ [(i, slot)] else s.phisAt d) :
    Placed f slots accesses (addSlot M (c :: merging) slot) s' := by
  have hfresh : s.flow.inst? i = none := hins.grown.fresh
  have hinst : ∀ j, s'.flow.inst? j = if j = i then some (.phi .phi [] []) else s.flow.inst? j :=
    hins.grown.inst?
  refine
    { coherent := hcoh
      slots := hslots.trans h.slots
      accesses := haccesses.trans h.accesses
      blocks := hins.alike.blocks.trans h.blocks
      heads := ?_, here := ?_, phi := ?_, others := ?_, listed := ?_, apart := ?_
      thinned := hadded ▸ hins.thinned h.thinned h.coherent
      origins := fun {w o} ho => ?_ }
  · intro d ys hys
    rw [hat]
    by_cases hd : c = d
    · subst hd
      cases hxs.symm.trans hys
      rw [hins.here, if_pos rfl]
      simp
    · rw [hins.others (Ne.symm hd), if_neg hd]
      exact h.heads hys
  · intro d
    rw [hat]
    by_cases hd : c = d
    · subst hd
      have hhere := h.here c
      rw [addSlot, if_neg hnew] at hhere
      rw [if_pos rfl, List.map_append, hhere, addSlot, if_pos List.mem_cons_self]
      rfl
    · rw [if_neg hd, h.here, addSlot, addSlot]
      simp [Ne.symm hd]
  · intro d j slot' hp
    rcases (mem_phisAt_add hat).1 hp with hp | ⟨-, rfl, rfl⟩
    · exact ⟨(h.phi hp).1, h.phi_grow hins.grown hp⟩
    · refine ⟨?_, (hinst j).trans (if_pos rfl), v, (hins.grown.result? j).trans (if_pos rfl),
        (hins.grown.origin? v).trans (if_pos rfl)⟩
      cases hold : f.flow.inst? j with
      | none => rfl
      | some inst => cases hfresh.symm.trans (h.inst?_old hold)
  · intro j hj
    have hne : j ≠ i := by
      rintro rfl
      exact hj c slot ((mem_phisAt_add hat).2 (.inr ⟨rfl, rfl, rfl⟩))
    rw [hinst, if_neg hne]
    exact h.others j fun d slot' hp => hj d slot' ((mem_phisAt_add hat).2 (.inl hp))
  · intro j
    rw [hadded, List.mem_append, List.mem_singleton, h.listed]
    simp only [mem_phisAt_add hat, exists_or]
    simp
  · rw [hadded]
    refine List.nodup_append.2 ⟨h.apart, List.nodup_singleton i, ?_⟩
    rintro j hj k hk rfl
    obtain ⟨d, slot', hp⟩ := (h.listed j).1 hj
    exact h.ne_fresh hfresh hp (List.mem_singleton.1 hk)
  · have hold := h.origins ho
    refine (hins.grown.origin? w).trans ((if_neg fun hvw => ?_).trans hold)
    cases (hins.grown.value_fresh w hvw).symm.trans hold

theorem addPhi_decides (h : Placed f slots accesses (addSlot M merging slot) s) {c : BlockId}
    (hc : c ∈ f.blocks) (hnew : c ∉ merging) :
    (s.addPhi slot c).Decides (slot.ty ≠ .void)
      (Placed f slots accesses (addSlot M (c :: merging) slot)) := by
  obtain ⟨xs, hxs⟩ := Layout.mem_blocks_iff.1 hc
  have hgap : (s.builder.goTo (.prepend c)).pos.Gap c [] (((s.phisAt c).map (·.1)).reverse ++ xs) :=
    .prepend c _
  have hcoherent : (s.builder.goTo (.prepend c)).func.Coherent := h.coherent
  have hbefore : s.func.insts c = .ok ([] ++ (((s.phisAt c).map (·.1)).reverse ++ xs)) :=
    h.heads hxs
  obtain ⟨i, b, v?, hphi, hcoh, hins⟩ := Builder.phiTyped_inserts hcoherent hbefore hgap
    (s.flow.name? slot.address) slot.ty
  have hresult : b.flow.result? i = v? := (hins.grown.result? i).trans (if_pos rfl)
  cases v? with
  | none =>
    have hvoid : slot.ty = .void := hins.grown.yields.1 rfl
    have hfault : (s.builder.goTo (.prepend c)).phiTyped (s.flow.name? slot.address) slot.ty [] [] =
        .error .dataAbsent := by
      rw [hphi, DataFlow.result, hresult]
      rfl
    exact ⟨fun hn => absurd hvoid hn, fun _ => (Run.fails_lift hfault).bind⟩
  | some v =>
    have hty : slot.ty ≠ .void := fun hvoid => by cases hins.grown.yields.2 hvoid
    refine ⟨fun _ => ?_, fun hn => absurd hty hn⟩
    have horigin : b.flow.origin? v = some (.result slot.ty i) :=
      (hins.grown.origin? v).trans (if_pos rfl)
    have hvalue : (s.builder.goTo (.prepend c)).phiTyped (s.flow.name? slot.address) slot.ty [] [] =
        .ok (v, b) := by
      rw [hphi, DataFlow.result_eq_ok.2 hresult]
      rfl
    have hdefiner : b.flow.definer v = .ok i := by
      simp [DataFlow.definer, DataFlow.definer?, DataFlow.origin_eq_ok.2 horigin]
    unfold addPhi
    refine (Run.yields_lift (P := (· = (v, b))) ⟨_, hvalue, rfl⟩).bind ?_
    rintro _ rfl
    refine (Run.yields_lift (P := (· = i)) ⟨_, hdefiner, rfl⟩).bind ?_
    rintro _ rfl
    refine (Run.yields_log (P := fun _ => True) trivial).bind fun _ _ => Run.yields_pure ?_
    refine h.grow hxs hnew hcoh hins rfl rfl rfl fun d => ?_
    unfold phisAt
    rw [Dict.get?_insert]
    split <;> rfl

theorem addPhis_decides (h : Placed f slots accesses (addSlot M merging slot) s)
    {fresh : List BlockId} (hplaced : ∀ c ∈ fresh, c ∈ f.blocks) (hn : fresh.Nodup)
    (hnew : ∀ c ∈ fresh, c ∉ merging) :
    (fresh.foldlM (fun (s : State) c => s.addPhi slot c) s).Decides (∀ c ∈ fresh, slot.ty ≠ .void)
      (Placed f slots accesses (addSlot M (fresh ++ merging) slot)) := by
  refine (Run.decides_foldlM (fun pre =>
    Placed f slots accesses (addSlot M (pre.reverse ++ merging) slot)) (fun _ => slot.ty ≠ .void) h
    ?_).mono fun s' hs' => ?_
  · rintro pre c post s' rfl hs'
    have hc : c ∈ pre ++ c :: post := List.mem_append_right _ List.mem_cons_self
    rw [List.reverse_append, List.reverse_singleton, List.singleton_append, List.cons_append]
    refine addPhi_decides hs' (hplaced c hc) fun hm => ?_
    rcases List.mem_append.1 hm with hm | hm
    · exact List.disjoint_of_nodup_append hn (List.mem_reverse.1 hm) List.mem_cons_self
    · exact hnew c hc hm
  · refine hs'.congr fun c => ?_
    simp [addSlot]

theorem onFrontier_iff (he : f.entry = .ok entry) {b c : BlockId} :
    f.OnFrontier b c ↔
      (∃ a, f.Leads a c ∧ Guards f.Leads entry b a) ∧ ¬ (b ≠ c ∧ Guards f.Leads entry b c) := by
  simp only [OnFrontier, StrictlyDominates, dominates_iff he]

/-- Beginning anywhere on the way, the blocks that are left lead to the merge points that are
missing. For a slot of type `void` none may be missing. -/
theorem placeFrom_decides (hclosed : f.Closed) (he : f.entry = .ok entry)
    (ht : t.Faithful f entry) {fuel : Nat} {stack visited : List BlockId}
    (h : Placed f slots accesses (addSlot M merging slot) s)
    (hw : Following f slot.address stack visited merging)
    (hfuel : stack.length + (t.order.filter (· ∉ visited)).length ≤ fuel) :
    (placeFrom t slot fuel stack visited merging s).Decides
      (slot.ty = .void → ∀ c, f.MergesAt slot.address c → c ∈ merging)
      fun s' => ∃ points, (∀ c, c ∈ points ↔ f.MergesAt slot.address c) ∧
        Placed f slots accesses (addSlot M points slot) s' := by
  induction fuel generalizing stack visited merging s with
  | zero =>
    cases stack with
    | nil =>
      rw [placeFrom]
      have hall : ∀ c, c ∈ merging ↔ f.MergesAt slot.address c := fun c => hw.finish
      exact (Run.yields_pure ⟨merging, hall, h⟩).decides.congr ⟨fun _ _ c hc => (hall c).2 hc,
        fun _ => trivial⟩
    | cons b stack =>
      rw [List.length_cons] at hfuel
      omega
  | succ fuel ih =>
    cases stack with
    | nil =>
      rw [placeFrom]
      have hall : ∀ c, c ∈ merging ↔ f.MergesAt slot.address c := fun c => hw.finish
      exact (Run.yields_pure ⟨merging, hall, h⟩).decides.congr ⟨fun _ _ c hc => (hall c).2 hc,
        fun _ => trivial⟩
    | cons b stack =>
      have hb := (reachable_iff he).1 (hw.reachable b (hw.stacked b List.mem_cons_self))
      obtain ⟨ys, hys, hn, hmem⟩ := ht.frontier hb
      have hfrontier : ∀ y, y ∈ ys ↔ f.OnFrontier b y :=
        fun y => (hmem y).trans (onFrontier_iff he).symm
      have hfresh : ∀ c ∈ ys.filter (· ∉ merging), f.OnFrontier b c ∧ c ∉ merging := by
        intro c hc
        obtain ⟨hc, hout⟩ := List.mem_filter.1 hc
        exact ⟨(hfrontier c).1 hc, of_decide_eq_true hout⟩
      have hplaced : ∀ c ∈ ys.filter (· ∉ merging), c ∈ f.blocks := fun c hc =>
        hclosed.connects_mem he ((reachable_iff he).1 (hfresh c hc).1.reachable)
      have hnew : ∀ c ∈ (ys.filter (· ∉ merging)).filter (· ∉ visited), c ∈ t.order ∧
          c ∉ visited := by
        intro c hc
        obtain ⟨hc, hout⟩ := List.mem_filter.1 hc
        exact ⟨(ht.listing.mem c).2 ((reachable_iff he).1 (hfresh c hc).1.reachable),
          of_decide_eq_true hout⟩
      have hsteps := unvisited_length ht.listing.nodup ((hn.filter _).filter _) hnew
      rw [placeFrom]
      refine (Run.yields_lift (P := (· = ys)) ⟨ys, hys, rfl⟩).bind_decides ?_
      rintro _ rfl
      refine ((addPhis_decides h hplaced (hn.filter _) fun c hc =>
        (hfresh c hc).2).bind fun s' hs' =>
        ih hs' (hw.advance hfrontier) ?_).congr ?_
      · rw [List.length_append, List.length_reverse]
        rw [List.length_cons] at hfuel
        omega
      · constructor
        · rintro ⟨hnone, hrest⟩ hvoid c hc
          rcases List.mem_append.1 (hrest hvoid c hc) with hc | hc
          · exact absurd hvoid (hnone c hc)
          · exact hc
        · intro hall
          refine ⟨fun c hc hvoid => ?_, fun hvoid c hc => List.mem_append_right _ (hall hvoid c hc)⟩
          exact (hfresh c hc).2 (hall hvoid c (hw.frontier_mergesAt (hfresh c hc).1))

theorem Placed.blockOf?_old (h : Placed f slots accesses M s) {i : InstId} {inst : Inst}
    (hi : f.flow.inst? i = some inst) {b : BlockId} :
    s.func.layout.blockOf? i = some b ↔ ∃ xs, f.insts b = .ok xs ∧ i ∈ xs := by
  rw [h.coherent.layout.blockOf?_eq_some]
  constructor
  · rintro ⟨ys, hys, hmem⟩
    have hb : b ∈ f.blocks := h.blocks ▸ Layout.mem_blocks_iff.2 ⟨ys, hys⟩
    obtain ⟨xs, hxs⟩ := Layout.mem_blocks_iff.1 hb
    cases (h.heads hxs).symm.trans hys
    refine ⟨xs, hxs, (List.mem_append.1 hmem).resolve_left fun hp => ?_⟩
    obtain ⟨⟨j, slot⟩, hadded, rfl⟩ := List.mem_map.1 (List.mem_reverse.1 hp)
    rw [(h.phi hadded).1] at hi
    cases hi
  · rintro ⟨xs, hxs, hmem⟩
    exact ⟨_, h.heads hxs, List.mem_append_right _ hmem⟩

theorem Placed.mem_storeBlocks (h : Placed f slots accesses M s) (he : f.entry = .ok entry)
    (ht : t.Faithful f entry) (hthere : ∀ i ∈ accesses, ∃ inst, f.flow.inst? i = some inst)
    (hall : ∀ {i inst}, f.flow.inst? i = some inst → inst.op = .store →
      inst.args.head? = some slot.address →
      i ∈ accesses) {b : BlockId} : b ∈ s.storeBlocks t slot ↔ f.StoresTo slot.address b := by
  have hreach : t.isReachable b = true ↔ f.Reachable b := by
    rw [ht.isReachable_iff, reachable_iff he]
  unfold storeBlocks StoresTo
  rw [List.mem_eraseDups, List.mem_filter, hreach, and_comm, h.accesses]
  refine and_congr_right fun _ => ?_
  rw [List.mem_filterMap]
  constructor
  · rintro ⟨i, hi, hb⟩
    obtain ⟨hi, hstore⟩ := List.mem_filter.1 hi
    obtain ⟨inst, hinst⟩ := hthere i hi
    rw [h.inst?_old hinst, Bool.and_eq_true, decide_eq_true_eq, decide_eq_true_eq] at hstore
    obtain ⟨hop, hhead⟩ := hstore
    obtain ⟨xs, hxs, hmem⟩ := (h.blockOf?_old hinst).1 hb
    exact ⟨xs, i, inst, hxs, hmem, hinst, hop, hhead⟩
  · rintro ⟨xs, i, inst, hxs, hmem, hinst, hop, hhead⟩
    refine ⟨i, List.mem_filter.2 ⟨hall hinst hop hhead, ?_⟩,
      (h.blockOf?_old hinst).2 ⟨xs, hxs, hmem⟩⟩
    rw [h.inst?_old hinst, Bool.and_eq_true, decide_eq_true_eq, decide_eq_true_eq]
    exact ⟨hop, hhead⟩

/-- Every block where paths with different stores to a slot meet has one more phi for it at its
head, of the type the slot holds, and nothing else has changed. -/
structure Merged (f : Func) (slots : List Slot) (s : State) : Prop where
  blocks : s.func.blocks = f.blocks
  heads : ∀ {c xs}, f.insts c = .ok xs →
    s.func.insts c = .ok (((s.phisAt c).map (·.1)).reverse ++ xs)
  once : ∀ c, ((s.phisAt c).map (·.2)).Nodup
  points : ∀ c slot, slot ∈ (s.phisAt c).map (·.2) ↔ slot ∈ slots ∧ f.MergesAt slot.address c
  phi : ∀ {c i slot}, (i, slot) ∈ s.phisAt c → f.flow.inst? i = none ∧
    s.flow.inst? i = some (.phi .phi [] []) ∧
    ∃ v, s.flow.result? i = some v ∧ s.flow.origin? v = some (.result slot.ty i)
  others : ∀ i, (∀ c slot, (i, slot) ∉ s.phisAt c) → s.flow.inst? i = f.flow.inst? i

def Covers (f : Func) (done : List Slot) (M : BlockId → List Slot) : Prop :=
  ∀ c, (M c).Sublist done ∧ ∀ slot ∈ done, slot ∈ M c ↔ f.MergesAt slot.address c

theorem Covers.add {done : List Slot} (h : Covers f done M) (hnew : slot ∉ done)
    {points : List BlockId} (hpoints : ∀ c, c ∈ points ↔ f.MergesAt slot.address c) :
    Covers f (done ++ [slot]) (addSlot M points slot) := by
  intro c
  obtain ⟨hsub, hmem⟩ := h c
  have hout : slot ∉ M c := fun hm => hnew (hsub.subset hm)
  unfold addSlot
  by_cases hc : c ∈ points
  · rw [if_pos hc]
    refine ⟨hsub.append (List.Sublist.refl _), fun x hx => ?_⟩
    rw [List.mem_append, List.mem_singleton] at hx ⊢
    by_cases hxs : x = slot
    · subst hxs
      simp [(hpoints c).1 hc]
    · rw [← hmem x (hx.resolve_right hxs)]
      simp [hxs]
  · rw [if_neg hc]
    refine ⟨hsub.trans (List.sublist_append_left _ _), fun x hx => ?_⟩
    rw [List.mem_append, List.mem_singleton] at hx
    by_cases hxs : x = slot
    · subst hxs
      exact ⟨fun hm => absurd hm hout, fun hm => absurd ((hpoints c).2 hm) hc⟩
    · exact hmem x (hx.resolve_right hxs)

theorem Placed.merged (h : Placed f slots accesses M s) (hn : slots.Nodup) (hM : Covers f slots M) :
    Merged f slots s where
  blocks := h.blocks
  heads := h.heads
  once c := by
    rw [h.here]
    exact (hM c).1.nodup hn
  points c slot := by
    rw [h.here]
    refine ⟨fun hm => ?_, fun hm => ((hM c).2 slot hm.1).2 hm.2⟩
    have hslot := (hM c).1.subset hm
    exact ⟨hslot, ((hM c).2 slot hslot).1 hm⟩
  phi := h.phi
  others := h.others

/-- What is known of the slots that are taken up: their addresses, what they hold, and all that
accesses them. -/
structure Taken (b : Builder) (insts : List InstId) (s : State) : Prop where
  builder : s.builder = b
  phis : s.phis = ∅
  added : s.added = []
  insts : s.slots.map (·.inst) = insts
  address : ∀ slot ∈ s.slots, b.flow.result? slot.inst = some slot.address ∧
    b.flow.ty slot.address = .ok (.ptr slot.ty)
  accesses : ∀ i, i ∈ s.accesses ↔ ∃ slot ∈ s.slots, ∃ inst, b.flow.inst? i = some inst ∧
    slot.address ∈ inst.args
  distinct : s.accesses.Nodup

def slotOf (g : DataFlow) (i : InstId) : Checked Slot := do
  let address ← g.result i
  return { inst := i, address, ty := ← (← g.ty address).target }

theorem slotOf_eq_ok {g : DataFlow} {i : InstId} : slotOf g i = .ok slot ↔
    slot.inst = i ∧ g.result? i = some slot.address ∧ g.ty slot.address = .ok (.ptr slot.ty) := by
  constructor
  · intro h
    obtain ⟨address, haddress, h⟩ := bind_eq_ok.1 h
    obtain ⟨ty, hty, h⟩ := bind_eq_ok.1 h
    obtain ⟨target, htarget, h⟩ := bind_eq_ok.1 h
    cases h
    refine ⟨rfl, DataFlow.result_eq_ok.1 haddress, ?_⟩
    cases ty with
    | ptr t =>
      cases htarget
      exact hty
    | _ => cases htarget
  · rintro ⟨rfl, haddress, hty⟩
    rw [slotOf, DataFlow.result_eq_ok.2 haddress, ok_bind, hty, ok_bind]
    rfl

theorem ofSlots_ok {b : Builder} (hb : b.func.Coherent) {insts : List InstId}
    (h : ∀ i ∈ insts, ∃ slot, slotOf b.flow i = .ok slot) : ∃ s, ofSlots b insts = .ok s := by
  obtain ⟨slots, hslots⟩ := mapM_exists h
  have hread : ∀ slot ∈ slots, ∃ us,
      (do return (← b.flow.users slot.address).toList : Checked (List InstId)) = .ok us := by
    intro slot hslot
    obtain ⟨n, hn⟩ := List.getElem?_of_mem hslot
    obtain ⟨i, -, hi⟩ := mapM_ok_getElem? hslots hn
    obtain ⟨ty, ho, -⟩ := hb.flow.result_origin (slotOf_eq_ok.1 hi).2.1
    obtain ⟨users, husers, -⟩ := DataFlow.users_ok ho
    have husers : b.flow.users slot.address = .ok users := husers
    exact ⟨users.toList, by rw [husers, ok_bind]; rfl⟩
  obtain ⟨users, husers⟩ := mapM_exists hread
  exact ⟨_, bind_eq_ok.2 ⟨slots, hslots, bind_eq_ok.2 ⟨users, husers, rfl⟩⟩⟩

theorem ofSlots_spec {b : Builder} (hb : b.func.Coherent) {insts : List InstId}
    (hs : ofSlots b insts = .ok s) :
    Taken b insts s := by
  obtain ⟨slots, hslots, hs⟩ := bind_eq_ok.1 hs
  obtain ⟨users, husers, hs⟩ := bind_eq_ok.1 hs
  cases hs
  have hslots : insts.mapM (slotOf b.flow) = .ok slots := hslots
  have hknown : ∀ slot ∈ slots, b.flow.result? slot.inst = some slot.address ∧
      b.flow.ty slot.address = .ok (.ptr slot.ty) := by
    intro slot hm
    obtain ⟨n, hn⟩ := List.getElem?_of_mem hm
    obtain ⟨i, -, hi⟩ := mapM_ok_getElem? hslots hn
    obtain ⟨rfl, haddress⟩ := slotOf_eq_ok.1 hi
    exact haddress
  have haddress : ∀ slot ∈ slots, ∃ o, b.flow.origin? slot.address = some o := fun slot hm => by
    obtain ⟨ty, ho, -⟩ := hb.flow.result_origin (hknown slot hm).1
    exact ⟨_, ho⟩
  have hmem : ∀ i, i ∈ (KeySet.ofList users.flatten).toList ↔
      ∃ slot ∈ slots, b.flow.Uses slot.address i := by
    intro i
    rw [KeySet.mem_toList_ofList, List.mem_flatten]
    constructor
    · rintro ⟨us, hus, hi⟩
      obtain ⟨n, hn⟩ := List.getElem?_of_mem hus
      obtain ⟨slot, hslot, hread⟩ := mapM_ok_getElem? husers hn
      obtain ⟨set, hset, hread⟩ := bind_eq_ok.1 hread
      cases hread
      exact ⟨slot, List.mem_of_getElem? hslot, set, hset, hi⟩
    · rintro ⟨slot, hm, set, hset, hi⟩
      obtain ⟨us, hus, hread⟩ := mapM_ok_forall husers slot hm
      rw [hset] at hread
      cases hread
      exact ⟨_, hus, hi⟩
  refine ⟨rfl, rfl, rfl, mapM_ok_map hslots fun hi => (slotOf_eq_ok.1 hi).1, hknown,
    fun i => (hmem i).trans ?_, KeySet.nodup _⟩
  refine exists_congr fun slot => and_congr_right fun hm => ?_
  obtain ⟨o, ho⟩ := haddress slot hm
  exact hb.flow.users_iff ho i

end State

theorem promotable_nodup {f : Func} (hf : f.layout.Proper) {insts : List InstId}
    (h : promotable f = .ok insts) :
    insts.Nodup :=
  (filterM_sublist h).nodup (hf.allInsts_nodup.filter _)

namespace State

open Func

theorem placed_start {b : Builder} (hb : b.func.Coherent) (hbuilder : s.builder = b)
    (hphis : s.phis = ∅) (hadded : s.added = []) :
    Placed b.func s.slots s.accesses (fun _ => []) s := by
  have hnone : ∀ c, s.phisAt c = [] := by
    intro c
    unfold phisAt
    rw [hphis]
    rfl
  subst hbuilder
  exact
    { coherent := hb
      slots := rfl
      accesses := rfl
      blocks := rfl
      heads := fun {c xs} hxs => by rw [hnone]; exact hxs
      here := fun c => by rw [hnone]; rfl
      phi := fun {c i slot} hp => by rw [hnone] at hp; cases hp
      others := fun i _ => rfl
      listed := fun i => by
        simp [hadded, hnone]
      apart := hadded ▸ List.nodup_nil
      thinned := hadded ▸ .refl s.func
      origins := id }

theorem turns_suffice {order stores : List BlockId} (hn : order.Nodup) (hs : stores.Nodup)
    (hknown : ∀ c ∈ stores, c ∈ order) :
    stores.reverse.length + (order.filter (· ∉ stores)).length ≤ order.length + 1 := by
  have hfresh : ∀ c ∈ stores, c ∈ order ∧ c ∉ ([] : List BlockId) :=
    fun c hc => ⟨hknown c hc, List.not_mem_nil⟩
  have hcount := unvisited_length hn hs hfresh
  have hle := List.length_filter_le (· ∉ ([] : List BlockId)) order
  rw [List.append_nil] at hcount
  rw [List.length_reverse]
  exact Nat.le_succ_of_le (hcount.trans hle)

theorem placePhis_places {b : Builder} {entry : BlockId} {insts : List InstId} {s : State}
    {t : DominatorTree} (hb : b.func.Coherent) (he : b.func.entry = .ok entry)
    (hclosed : b.func.Closed) (ht : t.Faithful b.func entry) (hn : insts.Nodup)
    (hs : Taken b insts s) :
    (s.placePhis t).Decides
      (∀ slot ∈ s.slots, slot.ty = .void → ∀ c, ¬ b.func.MergesAt slot.address c)
      fun s' => ∃ M, Placed b.func s.slots s.accesses M s' ∧ Covers b.func s.slots M := by
  have hn : s.slots.Nodup := (hs.insts ▸ hn).of_map _
  have hthere : ∀ i ∈ s.accesses, ∃ inst, b.flow.inst? i = some inst := fun i hi => by
    obtain ⟨-, -, inst, hinst, -⟩ := (hs.accesses i).1 hi
    exact ⟨inst, hinst⟩
  unfold placePhis
  refine Run.decides_foldlM
    (fun done s' => ∃ M, Placed b.func s.slots s.accesses M s' ∧ Covers b.func done M)
    (fun slot => slot.ty = .void → ∀ c, ¬ b.func.MergesAt slot.address c)
    ⟨_, placed_start hb hs.builder hs.phis hs.added, fun c => ⟨List.Sublist.refl _, by simp⟩⟩ ?_
  rintro done slot rest s' hsplit ⟨M, hplaced, hcovers⟩
  have hslot : slot ∈ s.slots := hsplit ▸ List.mem_append_right _ List.mem_cons_self
  have hnew : slot ∉ done := fun hm => by
    rw [hsplit] at hn
    exact List.disjoint_of_nodup_append hn hm List.mem_cons_self
  have hstores : ∀ c, c ∈ s'.storeBlocks t slot ↔ b.func.StoresTo slot.address c := fun c =>
    hplaced.mem_storeBlocks he ht hthere fun hi _ hhead =>
      (hs.accesses _).2 ⟨slot, hslot, _, hi, List.mem_of_head? hhead⟩
  have hwork := Following.start hstores
  have hknown : ∀ c ∈ s'.storeBlocks t slot, c ∈ t.order := fun c hc =>
    (ht.listing.mem c).2 ((reachable_iff he).1 ((hstores c).1 hc).1)
  have hfuel := turns_suffice ht.listing.nodup (nodup_eraseDups _) hknown
  have hplaced : Placed b.func s.slots s.accesses (addSlot M [] slot) s' :=
    hplaced.congr fun c => by simp [addSlot]
  refine ((placeFrom_decides hclosed he ht hplaced hwork hfuel).mono ?_).congr (by simp)
  rintro s'' ⟨points, hpoints, hplaced'⟩
  exact ⟨_, hplaced', hcovers.add hnew hpoints⟩

/-- The phis of all slots are placed if no slot of type `void` has a place where paths meet, and
only then. -/
theorem placePhis_decides {b : Builder} {entry : BlockId} {insts : List InstId} {s : State}
    (hb : b.func.Coherent) (he : b.func.entry = .ok entry) (hclosed : b.func.Closed)
    (hinsts : promotable b.func = .ok insts) (hs : ofSlots b insts = .ok s) :
    ∃ t, DominatorTree.ofFunc b.func = .ok t ∧
      (s.placePhis t).Decides
        (∀ slot ∈ s.slots, slot.ty = .void → ∀ c, ¬ b.func.MergesAt slot.address c)
        (Merged b.func s.slots) := by
  obtain ⟨t, ht, hfaithful, -⟩ := DominatorTree.ofFunc_ok he hclosed hb.bound
  have hs := ofSlots_spec hb hs
  have hn := promotable_nodup hb.layout hinsts
  refine ⟨t, ht, (placePhis_places hb he hclosed hfaithful hn hs).mono ?_⟩
  rintro s' ⟨M, hplaced, hcovers⟩
  exact hplaced.merged ((hs.insts ▸ hn).of_map _) hcovers

/-- A loop in a loop. Paths meet where each begins, and the inner one stores to the slot in that
same block. -/
def nestedStore : Checked Builder :=
  Func.build "nested" ⟨[.int 1], none⟩
    [.block (some "entry"), .block (some "outer"), .block (some "inner"), .block (some "latch"),
    .block (some "exit"),
      .const (.int32 7),
      .goTo (.append ⟨0⟩), .insert (.nullary .alloca) (.ptr (.int 32)),
      .insert (.jump .br ⟨1⟩) .void, .goTo (.append ⟨1⟩),
      .insert (.branch .brCond ⟨0⟩ ⟨2⟩ ⟨4⟩) .void, .goTo (.append ⟨2⟩),
      .insert (.binary .store ⟨2⟩ ⟨1⟩) .void, .insert (.branch .brCond ⟨0⟩ ⟨2⟩ ⟨3⟩) .void,
      .goTo (.append ⟨3⟩), .insert (.jump .br ⟨1⟩) .void, .goTo (.append ⟨4⟩),
      .insert (.nullary .ret) .void]

theorem nestedStore_placed : ∃ b insts s t s', nestedStore = .ok b ∧ promotable b.func = .ok insts ∧
    ofSlots b insts = .ok s ∧ DominatorTree.ofFunc b.func = .ok t ∧
    (s.placePhis t).outcome = .ok s' ∧ Merged b.func s.slots s' ∧
    (b.func.blocks.map fun c => (s'.phisAt c).length) = [0, 1, 1, 0, 0] := by
  obtain ⟨b, hb, h⟩ := exists_of_any (x := nestedStore) (p := fun b => b.func.isClosed &&
    (b.func.entry.toOption.any fun _ => true) && (promotable b.func).toOption.any fun insts =>
      (ofSlots b insts).toOption.any fun s => s.slots.all (·.ty ≠ .void) &&
        (DominatorTree.ofFunc b.func).toOption.any fun t =>
        (s.placePhis t).outcome.toOption.any fun s' =>
          (b.func.blocks.map fun c => (s'.phisAt c).length) = [0, 1, 1, 0, 0]) (by decide +kernel)
  simp only [Bool.and_eq_true] at h
  obtain ⟨⟨hclosed, hentry⟩, h⟩ := h
  obtain ⟨entry, hentry, -⟩ := exists_of_any hentry
  obtain ⟨insts, hinsts, h⟩ := exists_of_any h
  obtain ⟨s, hs, h⟩ := exists_of_any h
  simp only [Bool.and_eq_true] at h
  obtain ⟨hvoid, h⟩ := h
  obtain ⟨t, ht, h⟩ := exists_of_any h
  obtain ⟨s', hs', hcounts⟩ := exists_of_any h
  obtain ⟨t', ht', hplace⟩ :=
    placePhis_decides (Func.build_coherent (by decide) hb) hentry
      (Func.closed_of_isClosed hclosed) hinsts hs
  rw [ht] at ht'
  cases ht'
  obtain ⟨s'', hs'', hmerged⟩ := (hplace.1 fun slot hslot hty => by
    have := List.all_eq_true.1 hvoid slot hslot
    rw [hty] at this
    cases this).outcome
  rw [hs'] at hs''
  cases hs''
  exact ⟨b, insts, s, t, s', hb, hinsts, hs, ht, hs', hmerged, of_decide_eq_true hcounts⟩

/-- Both arms of a branch store nothing of type `void` to a slot. -/
def voidStores : Checked Builder :=
  Func.build "f" ⟨[.int 1], some (.int 32)⟩
    [.block (some "entry"), .block (some "left"), .block (some "right"), .block (some "join"),
    .const (.int32 7),
      .undef .void,
      .goTo (.append ⟨0⟩), .insert (.nullary .alloca) (.ptr .void),
      .insert (.branch .brCond ⟨0⟩ ⟨1⟩ ⟨2⟩) .void, .goTo (.append ⟨1⟩),
      .insert (.binary .store ⟨3⟩ ⟨2⟩) .void, .insert (.jump .br ⟨3⟩) .void, .goTo (.append ⟨2⟩),
      .insert (.binary .store ⟨3⟩ ⟨2⟩) .void, .insert (.jump .br ⟨3⟩) .void, .goTo (.append ⟨3⟩),
      .insert (.unary .retValue ⟨1⟩) .void]

/-- The function verifies and paths with different stores meet, but no phi is placed there. -/
theorem voidStores_not_placed : ∃ b insts s t, voidStores = .ok b ∧ b.func.errors = .ok [] ∧
    promotable b.func = .ok insts ∧ ofSlots b insts = .ok s ∧ DominatorTree.ofFunc b.func = .ok t ∧
    (∃ slot ∈ s.slots, b.func.MergesAt slot.address ⟨3⟩) ∧
    ∀ s', (s.placePhis t).outcome ≠ .ok s' := by
  obtain ⟨b, hb, h⟩ := exists_of_any (x := voidStores) (p := fun b =>
    b.func.errors.toOption.any (·.isEmpty) && b.func.isClosed && (b.func.entry.toOption.any fun _ =>
    true) && (promotable b.func).toOption.any fun insts =>
      (ofSlots b insts).toOption.any fun s => (DominatorTree.ofFunc b.func).toOption.any fun t =>
        (s.slots.any fun slot => slot.address = ⟨3⟩) && t.isReachable ⟨1⟩ &&
          ((b.func.insts ⟨1⟩).toOption.any fun xs => xs.any fun i =>
          (b.flow.inst? i).any fun inst =>
            inst.op = .store && inst.args.head? = some ⟨3⟩) &&
          (t.frontier ⟨1⟩).toOption.any (·.contains ⟨3⟩) && (s.placePhis t).outcome.toOption.isNone)
    (by decide +kernel)
  simp only [Bool.and_eq_true] at h
  obtain ⟨⟨⟨hverified, hclosed⟩, hentry⟩, h⟩ := h
  obtain ⟨entry, hentry, -⟩ := exists_of_any hentry
  obtain ⟨insts, hinsts, h⟩ := exists_of_any h
  obtain ⟨s, hs, h⟩ := exists_of_any h
  obtain ⟨t, ht, h⟩ := exists_of_any h
  simp only [Bool.and_eq_true] at h
  obtain ⟨⟨⟨⟨hslot, hreach⟩, hstore⟩, hfrontier⟩, hfault⟩ := h
  obtain ⟨t', ht', hfaithful, -⟩ := DominatorTree.ofFunc_ok hentry (Func.closed_of_isClosed hclosed)
    (Func.build_coherent (by decide) hb).bound
  rw [ht] at ht'
  cases ht'
  have hreach : Connects b.func.Leads entry ⟨1⟩ := (hfaithful.isReachable_iff _).1 hreach
  have hstores : b.func.StoresTo ⟨3⟩ ⟨1⟩ := by
    obtain ⟨xs, hxs, hstore⟩ := exists_of_any hstore
    obtain ⟨i, hi, hstore⟩ := List.any_eq_true.1 hstore
    obtain ⟨inst, hinst, hstore⟩ := (Option.any_eq_true _ _).1 hstore
    rw [Bool.and_eq_true, decide_eq_true_eq, decide_eq_true_eq] at hstore
    exact ⟨(reachable_iff hentry).2 hreach, xs, i, inst, hxs, hi, hinst, hstore.1, hstore.2⟩
  have hends : b.func.OnFrontier ⟨1⟩ ⟨3⟩ := by
    obtain ⟨ys, hys, hmem⟩ := exists_of_any hfrontier
    obtain ⟨zs, hzs, -, hall⟩ := hfaithful.frontier hreach
    rw [hys] at hzs
    cases hzs
    exact (onFrontier_iff hentry).2 ((hall _).1 (List.contains_iff_mem.1 hmem))
  obtain ⟨slot, hslot, haddress⟩ := List.any_eq_true.1 hslot
  refine ⟨b, insts, s, t, hb, verified_of_any hverified, hinsts, hs, ht, ⟨slot, hslot, ?_⟩,
    fun s' hs' => ?_⟩
  · rw [of_decide_eq_true haddress]
    exact .store hstores hends
  · rw [hs'] at hfault
    cases hfault

end State

end Promotion

end MiddleEnd
