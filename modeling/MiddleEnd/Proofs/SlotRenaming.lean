import MiddleEnd.Proofs.SlotPhis

/-!
# Renaming slots

Loads of the slots give way to the values that stand for what the slots hold, and phis are told what
comes along the edges. Whatever is replaced, what stands for something goes on doing so. A walk that
meets the loads one after the other puts nothing in their place that it is going to replace, so that
the versions it carries along stay what they are.
-/

namespace MiddleEnd

namespace Promotion

open Func

def State.Loads (p : State) (l : InstId) (r : ValueId) : Prop :=
  ∃ slot ∈ p.slots, p.flow.inst? l = some (.unary .load slot.address) ∧ p.flow.result? l = some r

def State.rewritten (p : State) (τ : ValueId → ValueId)
    (fill : InstId → List (ValueId × BlockId)) (i : InstId) (inst : Inst) : Inst :=
  if i ∈ p.added then .phi .phi ((fill i).map (·.1)) ((fill i).map (·.2)) else inst.mapArgs τ

def State.heldBehind (p : State) (t : DominatorTree) (b : BlockId) (pre : List InstId)
    (a : ValueId) : Option ValueId :=
  p.func.lastStored a (held p.func t (p.mergedAt a) a b) pre

/-- Loads of slots have been replaced, those that were seen by what stands for what the slot holds
there, and phis have been told what comes along some edges. -/
structure Rewritten (p : State) (entry : BlockId) (t : DominatorTree) (seen : InstId → Prop)
    (filled : InstId → BlockId → Prop) (g : DataFlow) (τ : ValueId → ValueId)
    (fill : InstId → List (ValueId × BlockId)) : Prop where
  exact : g.Exact
  rewired : DataFlow.Rewired p.flow g (p.rewritten τ fill)
  moved : ∀ {x}, τ x ≠ x → (∃ l, p.Loads l x) ∧ ∀ slot ∈ p.slots, τ x ≠ slot.address
  typed : ∀ {x o}, p.flow.origin? x = some o → g.ty (τ x) = .ok o.ty
  loads : ∀ {b pre l post slot r}, seen l → Connects p.func.Leads entry b →
    p.func.insts b = .ok (pre ++ l :: post) →
    slot ∈ p.slots → p.flow.inst? l = some (.unary .load slot.address) → p.flow.result? l = some r →
    (p.withFlow g).func.Stands τ (τ r) (p.heldBehind t b pre slot.address)
  once : ∀ {i}, i ∈ p.added → ((fill i).map (·.2)).Nodup
  fed : ∀ {i}, i ∈ p.added → ∀ {q}, q ∈ (fill i).map (·.2) ↔ filled i q
  edge : ∀ {c i slot v q}, (i, slot) ∈ p.phisAt c → (v, q) ∈ fill i → g.ty v = .ok slot.ty ∧
    (∀ slot' ∈ p.slots, v ≠ slot'.address) ∧ (Connects p.func.Leads entry q →
      (p.withFlow g).func.Stands τ v (heldAtEnd p.func t (p.mergedAt slot.address) slot.address q))

section Rewritten

variable {f : Func} {entry b : BlockId} {t : DominatorTree} {p : State} {seen : InstId → Prop}
  {filled : InstId → BlockId → Prop} {g g' : DataFlow} {τ : ValueId → ValueId}
  {fill : InstId → List (ValueId × BlockId)} {i l : InstId} {r v x : ValueId} {slot : Slot}
  {held? : Option ValueId}

theorem State.Loads.unique (hc : p.func.Coherent) {l' : InstId} (h : p.Loads l r)
    (h' : p.Loads l' r) : l = l' := by
  obtain ⟨slot, -, -, hr⟩ := h
  obtain ⟨slot', -, -, hr'⟩ := h'
  obtain ⟨ty, ho, -⟩ := hc.flow.result_origin hr
  exact (hc.flow.definer_eq hr' ho)

theorem Planted.load_ne_address (h : Planted f entry t p) (hl : p.Loads l r) (hs : slot ∈ p.slots) :
    r ≠ slot.address := by
  rintro rfl
  obtain ⟨slot', -, hi, hr⟩ := hl
  obtain ⟨ty, ho, -⟩ := h.coherent.flow.result_origin hr
  have he : l = slot.inst := (h.coherent.flow.definer_eq (h.hidden_here hs).result ho)
  cases (he ▸ hi).symm.trans (h.hidden_here hs).slot

namespace Rewritten

variable (h : Rewritten p entry t seen filled g τ fill)

include h

theorem extend (hg' : g'.Exact) (hR : DataFlow.Rewired g g' fun _ inst => inst) :
    Rewritten p entry t seen filled g' τ fill where
  exact := hg'
  rewired := h.rewired.trans hR
  moved := h.moved
  typed hx := hR.ty (h.typed hx)
  loads hl hb hxs hs hi hr := (h.loads hl hb hxs hs hi hr).extend hR.origin?
  once := h.once
  fed := h.fed
  edge hi hv := by
    obtain ⟨hty, haddr, hst⟩ := h.edge hi hv
    exact ⟨hR.ty hty, haddr, fun hq => (hst hq).extend hR.origin?⟩

theorem fixed_of_not_load (hx : ∀ l, ¬ p.Loads l x) : τ x = x :=
  Classical.byContradiction fun hne => (h.moved hne).1.elim fun l hl => hx l hl

theorem result_ne_undef (hr : p.flow.result? l = some r) (hc : p.func.Coherent) (ty : Ty) :
    g.origin? r ≠ some (.undef ty) := by
  intro hundef
  obtain ⟨ty', ho, -⟩ := hc.flow.result_origin hr
  cases (h.rewired.origin? ho).symm.trans hundef

/-- A load of a slot gives way to another value of the type that the slot holds. -/
theorem replace (hP : Planted f entry t p) (hs : slot ∈ p.slots)
    (hi : p.flow.inst? l = some (.unary .load slot.address)) (hr : p.flow.result? l = some r)
    (hv : g.ty v = .ok slot.ty) (haddr : ∀ slot' ∈ p.slots, v ≠ slot'.address) :
    ∃ n g', g.replaceUse r v = .ok (n, g') ∧ DataFlow.Rewired g g'
      (fun _ inst => inst.mapArgs (DataFlow.swap r v)) ∧ Rewritten p entry t seen filled g'
      (DataFlow.swap r v ∘ τ) fun i => (fill i).map fun e => (DataFlow.swap r v e.1, e.2) := by
  have hload : p.Loads l r := ⟨slot, hs, hi, hr⟩
  obtain ⟨r', hr', hrty⟩ := hP.load hs hi
  rw [hr] at hr'
  cases hr'
  obtain ⟨o, ho, -⟩ := DataFlow.ty_eq_ok.1 hrty
  obtain ⟨o', ho', -⟩ := DataFlow.ty_eq_ok.1 hv
  obtain ⟨n, g', hrep, hg', hR⟩ := DataFlow.replaceUse_ok h.exact (h.rewired.origin? ho) ho'
  have hgr : g.ty r = .ok slot.ty := h.rewired.ty hrty
  have hty : ∀ {x ty}, g.ty x = .ok ty → g'.ty (DataFlow.swap r v x) = .ok ty := by
    intro x ty hx
    by_cases hxr : x = r
    · subst hxr
      rw [hgr] at hx
      cases hx
      exact (congrArg g'.ty (if_pos rfl)).trans (hR.ty hv)
    · rw [DataFlow.swap_of_ne hxr]
      exact hR.ty hx
  have hfree : ∀ {x}, (∀ slot' ∈ p.slots, x ≠ slot'.address) →
      ∀ slot' ∈ p.slots, DataFlow.swap r v x ≠ slot'.address := by
    intro x hx
    by_cases hxr : x = r
    · rw [hxr, show DataFlow.swap r v r = v from if_pos rfl]
      exact haddr
    · rw [DataFlow.swap_of_ne hxr]
      exact hx
  refine ⟨n, g', hrep, hR, hg', ?_, ?_, fun hx => hty (h.typed hx), ?_, ?_, ?_, ?_⟩
  · refine (h.rewired.trans hR).congr fun i inst hinst => ?_
    unfold State.rewritten
    split
    · rw [Inst.mapArgs, List.map_map, List.map_map, List.map_map]
      rfl
    · exact Inst.mapArgs_mapArgs _ _ _
  · intro x hx
    by_cases hτ : τ x = x
    · rw [Function.comp_apply, hτ] at hx ⊢
      have hxr : x = r := Classical.byContradiction fun hne => hx (DataFlow.swap_of_ne hne)
      subst hxr
      exact ⟨⟨l, hload⟩, hfree fun slot' hs' => hP.load_ne_address hload hs'⟩
    · exact ⟨(h.moved hτ).1, hfree (h.moved hτ).2⟩
  · intro b pre l' post slot' r' hl hb hxs hs' hi' hr'
    exact (h.loads hl hb hxs hs' hi' hr').swap (h.result_ne_undef hr hP.coherent) hR.origin?
  · intro i hi
    rw [List.map_map]
    exact h.once hi
  · intro i hi q
    rw [List.map_map]
    exact h.fed hi
  · intro c i slot' w q hphi hw
    obtain ⟨⟨w', q'⟩, hmem, he⟩ := List.mem_map.1 hw
    cases he
    obtain ⟨hwty, hwaddr, hst⟩ := h.edge hphi hmem
    exact ⟨hty hwty, hfree hwaddr,
      fun hq => (hst hq).swap (h.result_ne_undef hr hP.coherent) hR.origin?⟩

/-- A phi is told what comes along one more edge. -/
theorem feed (hP : Planted f entry t p) {c q : BlockId} (hphi : (i, slot) ∈ p.phisAt c)
    (hnew : ¬ filled i q) (hv : g.ty v = .ok slot.ty) (haddr : ∀ slot' ∈ p.slots, v ≠ slot'.address)
    (hst : Connects p.func.Leads entry q →
      (p.withFlow g).func.Stands τ v
        (heldAtEnd p.func t (p.mergedAt slot.address) slot.address q)) :
    ∃ g', g.addIncoming i v q = .ok g' ∧ Rewritten p entry t seen
      (fun j d => filled j d ∨ (j = i ∧ d = q)) g' τ fun j =>
      if j = i then fill j ++ [(v, q)] else fill j := by
  have hi : i ∈ p.added := hP.mem_added.2 ⟨c, slot, hphi⟩
  have hinst : g.inst? i = some (.phi .phi ((fill i).map (·.1)) ((fill i).map (·.2))) := by
    rw [h.rewired.inst?, hP.inst?_added hi, Option.map_some]
    exact congrArg some (if_pos hi)
  obtain ⟨o, ho, -⟩ := DataFlow.ty_eq_ok.1 hv
  obtain ⟨g', hadd, hg', hR⟩ := DataFlow.addIncoming_ok h.exact q hinst ho
  refine ⟨g', hadd, hg', ?_, h.moved, fun hx => hR.ty (h.typed hx), fun hl hb hxs hs hi hr =>
    (h.loads hl hb hxs hs hi hr).extend hR.origin?, ?_, ?_, ?_⟩
  · refine (h.rewired.trans hR).congr fun j inst hinst => ?_
    unfold State.rewritten
    by_cases hj : j = i
    · subst hj
      simp only [if_pos, hi, List.map_append, List.map_cons, List.map_nil]
    · simp only [if_neg hj]
  · intro j hj
    by_cases hji : j = i
    · rw [if_pos hji, List.map_append]
      refine List.nodup_append.2 ⟨h.once hj, List.nodup_singleton _, ?_⟩
      rintro d hd d' hd' rfl
      rw [List.mem_singleton.1 hd', hji] at hd
      exact hnew ((h.fed hi).1 hd)
    · rw [if_neg hji]
      exact h.once hj
  · intro j hj d
    by_cases hji : j = i
    · subst hji
      rw [if_pos rfl, List.map_append, List.mem_append, h.fed hj]
      simp
    · rw [if_neg hji, h.fed hj]
      simp [hji]
  · intro d j slot' w e hphi' hw
    by_cases hji : j = i
    · subst hji
      obtain ⟨rfl, rfl⟩ := hP.phi_unique hphi hphi'
      rw [if_pos rfl] at hw
      rcases List.mem_append.1 hw with hw | hw
      · obtain ⟨hwty, hwaddr, hwst⟩ := h.edge hphi hw
        exact ⟨hR.ty hwty, hwaddr, fun hq => (hwst hq).extend hR.origin?⟩
      · cases List.mem_singleton.1 hw
        exact ⟨hR.ty hv, haddr, fun hq => (hst hq).extend hR.origin?⟩
    · rw [if_neg hji] at hw
      obtain ⟨hwty, hwaddr, hwst⟩ := h.edge hphi' hw
      exact ⟨hR.ty hwty, hwaddr, fun hq => (hwst hq).extend hR.origin?⟩

theorem see (hnew : ∀ {b pre post slot r}, Connects p.func.Leads entry b →
    p.func.insts b = .ok (pre ++ l :: post) →
    slot ∈ p.slots → p.flow.inst? l = some (.unary .load slot.address) → p.flow.result? l = some r →
    (p.withFlow g).func.Stands τ (τ r) (p.heldBehind t b pre slot.address)) :
    Rewritten p entry t (fun i => seen i ∨ i = l) filled g τ fill where
  exact := h.exact
  rewired := h.rewired
  moved := h.moved
  typed := h.typed
  loads {b pre l' post slot r} hl hb hxs hs hi hr := by
    rcases hl with hl | rfl
    · exact h.loads hl hb hxs hs hi hr
    · exact hnew hb hxs hs hi hr
  once := h.once
  fed := h.fed
  edge := h.edge

end Rewritten

end Rewritten

def State.Met (p : State) (entry : BlockId) (i : InstId) : Prop :=
  ∃ b xs, Connects p.func.Leads entry b ∧ p.func.insts b = .ok xs ∧ i ∈ xs

/-- No address of a slot, and no load of one that the walk has yet to see. -/
structure State.Settled (p : State) (entry : BlockId) (seen : InstId → Prop) (v : ValueId) :
    Prop where
  address : ∀ slot ∈ p.slots, v ≠ slot.address
  loaded : ∀ {l}, p.Met entry l → p.Loads l v → seen l

/-- What the walk has seen has been replaced, and by nothing that it is going to replace. -/
structure Renamed (p : State) (entry : BlockId) (t : DominatorTree) (seen : InstId → Prop)
    (filled : InstId → BlockId → Prop) (g : DataFlow) (τ : ValueId → ValueId)
    (fill : InstId → List (ValueId × BlockId)) :
    Prop extends Rewritten p entry t seen filled g τ fill where
  past : ∀ {x}, τ x ≠ x → ∃ l, seen l ∧ p.Met entry l ∧ p.Loads l x
  plain : ∀ {l r}, seen l → p.Met entry l → p.Loads l r → p.Settled entry (fun _ => False) (τ r)

def Onward (p : State) (entry : BlockId) (seen : InstId → Prop) (τ τ' : ValueId → ValueId) : Prop :=
  ∀ ⦃x⦄, τ' x ≠ τ x → ∃ l, ¬ seen l ∧ p.Met entry l ∧ p.Loads l x

/-- The versions are what stands for what the slots hold. -/
structure Latest (p : State) (entry : BlockId) (seen : InstId → Prop) (τ : ValueId → ValueId)
    (held? : ValueId → Option ValueId) (versions : State.Versions) : Prop where
  found : ∀ {slot}, slot ∈ p.slots → versions.lookup slot.address = (held? slot.address).map τ
  settled : ∀ {slot w}, slot ∈ p.slots → held? slot.address = some w →
    p.Settled entry seen w ∧ p.flow.ty w = .ok slot.ty

section Renamed

variable {f : Func} {entry b : BlockId} {t : DominatorTree} {p : State} {seen seen' : InstId → Prop}
  {filled : InstId → BlockId → Prop} {g g' : DataFlow} {τ τ' τ'' : ValueId → ValueId}
  {fill : InstId → List (ValueId × BlockId)} {i l : InstId} {r v x : ValueId} {slot : Slot}
  {held? : ValueId → Option ValueId} {versions : State.Versions}

theorem State.Settled.mono (h : p.Settled entry seen v) (hsub : ∀ i, seen i → seen' i) :
    p.Settled entry seen' v :=
  ⟨h.address, fun hm hl => hsub _ (h.loaded hm hl)⟩

theorem Onward.refl (p : State) (entry : BlockId) (seen : InstId → Prop) (τ : ValueId → ValueId) :
    Onward p entry seen τ τ := fun _ hx => absurd rfl hx

theorem Onward.trans (h : Onward p entry seen τ τ') (h' : Onward p entry seen' τ' τ'')
    (hsub : ∀ i, seen i → seen' i) : Onward p entry seen τ τ'' := by
  intro x hx
  by_cases hτ : τ' x = τ x
  · obtain ⟨l, hl, hm, hload⟩ := h' (hτ.symm ▸ hx)
    exact ⟨l, fun hs => hl (hsub l hs), hm, hload⟩
  · exact h hτ

theorem Latest.onward (h : Latest p entry seen τ held? versions) (ho : Onward p entry seen τ τ')
    (hsub : ∀ i, seen i → seen' i) : Latest p entry seen' τ' held? versions where
  found {slot} hs := by
    rw [h.found hs]
    cases hheld : held? slot.address with
    | none => rfl
    | some w =>
      have hsame : τ' w = τ w := Classical.byContradiction fun hne => by
        obtain ⟨l, hl, hm, hload⟩ := ho hne
        exact hl ((h.settled hs hheld).1.loaded hm hload)
      exact congrArg some hsame.symm
  settled hs hw := ⟨(h.settled hs hw).1.mono hsub, (h.settled hs hw).2⟩

theorem Latest.congr {held?' : ValueId → Option ValueId} (h : Latest p entry seen τ held? versions)
    (heq : ∀ slot ∈ p.slots, held?' slot.address = held? slot.address) :
    Latest p entry seen τ held?' versions where
  found {slot} hs := (heq slot hs).symm ▸ h.found hs
  settled {slot _} hs hw := h.settled hs (heq slot hs ▸ hw)

namespace Renamed

variable (h : Renamed p entry t seen filled g τ fill)

include h

theorem extend (hg' : g'.Exact) (hR : DataFlow.Rewired g g' fun _ inst => inst) :
    Renamed p entry t seen filled g' τ fill where
  toRewritten := h.toRewritten.extend hg' hR
  past := h.past
  plain := h.plain

theorem settled (hv : p.Settled entry seen v) : p.Settled entry (fun _ => False) (τ v) := by
  by_cases hτ : τ v = v
  · refine hτ.symm ▸ ⟨hv.address, fun {l} hm hl => ?_⟩
    have hplain := h.plain (hv.loaded hm hl) hm hl
    exact hplain.loaded hm (hτ.symm ▸ hl)
  · obtain ⟨l, hl, hm, hload⟩ := h.past hτ
    exact h.plain hl hm hload

theorem settled_of_undef (hP : Planted f entry t p) {ty : Ty}
    (hv : g.origin? v = some (.undef ty)) :
    p.Settled entry (fun _ => False) v where
  address slot hs := by
    rintro rfl
    exact h.result_ne_undef (hP.hidden_here hs).result hP.coherent ty hv
  loaded _ hl := by
    obtain ⟨slot, -, -, hr⟩ := hl
    exact h.result_ne_undef hr hP.coherent ty hv

theorem pass (hi : ∀ r, ¬ p.Loads i r) :
    Renamed p entry t (fun j => seen j ∨ j = i) filled g τ fill where
  toRewritten := h.toRewritten.see fun _ _ hs hj hr => absurd ⟨_, hs, hj, hr⟩ (hi _)
  past hx := by
    obtain ⟨l, hl, hm, hload⟩ := h.past hx
    exact ⟨l, .inl hl, hm, hload⟩
  plain {l r} hl hm hload := by
    rcases hl with hl | rfl
    · exact h.plain hl hm hload
    · exact absurd hload (hi r)

theorem feed (hP : Planted f entry t p) {c q : BlockId} (hphi : (i, slot) ∈ p.phisAt c)
    (hnew : ¬ filled i q) (hv : g.ty v = .ok slot.ty) (haddr : ∀ slot' ∈ p.slots, v ≠ slot'.address)
    (hst : (p.withFlow g).func.Stands τ v
      (heldAtEnd p.func t (p.mergedAt slot.address) slot.address q)) :
    ∃ g' fill', g.addIncoming i v q = .ok g' ∧
      Renamed p entry t seen (fun j d => filled j d ∨ (j = i ∧ d = q)) g' τ fill' := by
  obtain ⟨g', hadd, hrw⟩ := h.toRewritten.feed hP hphi hnew hv haddr fun _ => hst
  exact ⟨g', _, hadd, hrw, h.past, h.plain⟩

/-- A load that is met gives way to what stands for what its slot holds. -/
theorem replace (hP : Planted f entry t p) {pre post : List InstId}
    (hb : Connects p.func.Leads entry b) (hxs : p.func.insts b = .ok (pre ++ l :: post))
    (hnew : ¬ seen l) (hs : slot ∈ p.slots) (hi : p.flow.inst? l = some (.unary .load slot.address))
    (hr : p.flow.result? l = some r) (hty : g.ty v = .ok slot.ty)
    (hv : p.Settled entry (fun _ => False) v)
    (hst : (p.withFlow g).func.Stands τ v (p.heldBehind t b pre slot.address)) :
    ∃ n g' τ' fill', g.replaceUse r v = .ok (n, g') ∧
      Renamed p entry t (fun j => seen j ∨ j = l) filled g' τ' fill' ∧
      Onward p entry seen τ τ' := by
  have hload : p.Loads l r := ⟨slot, hs, hi, hr⟩
  have hmet : p.Met entry l := ⟨b, _, hb, hxs, List.mem_append_right _ List.mem_cons_self⟩
  have hne : ∀ {x}, p.Settled entry (fun _ => False) x → x ≠ r := by
    rintro x hx rfl
    exact hx.loaded hmet hload
  have hstays : ∀ {x}, p.Settled entry (fun _ => False) x → DataFlow.swap r v x = x :=
    fun hx => DataFlow.swap_of_ne (hne hx)
  have hτr : τ r = r := Classical.byContradiction fun hmoved => by
    obtain ⟨l', hl', -, hload'⟩ := h.past hmoved
    exact hnew (hload'.unique hP.coherent hload ▸ hl')
  have hτ'r : DataFlow.swap r v (τ r) = v := by
    rw [hτr]
    exact if_pos rfl
  obtain ⟨n, g', hrep, hR, hrw⟩ := h.toRewritten.replace hP hs hi hr hty hv.address
  refine ⟨n, g', _, _, hrep, ⟨hrw.see ?_, ?_, ?_⟩, ?_⟩
  · intro b' pre' post' slot' r' hb' hxs' hs' hi' hr'
    cases hr.symm.trans hr'
    have haddr : slot.address = slot'.address := by
      have hinst := hi.symm.trans hi'
      rw [Option.some.injEq, Inst.unary.injEq] at hinst
      exact hinst.2
    obtain rfl := hP.address_inj hs hs' haddr
    obtain ⟨rfl, rfl, -⟩ := hP.coherent.one_place hxs hxs'
    have hstands : (p.withFlow g').func.Stands (DataFlow.swap r v ∘ τ) (DataFlow.swap r v v) _ :=
      hst.swap (h.result_ne_undef hr hP.coherent) hR.origin?
    rw [hstays hv] at hstands
    rw [Function.comp_apply, hτ'r]
    exact hstands
  · intro x hx
    by_cases hτ : τ x = x
    · have hxr : x = r := Classical.byContradiction fun hxne => hx (by
        rw [Function.comp_apply, hτ, DataFlow.swap_of_ne hxne])
      exact ⟨l, .inr rfl, hmet, hxr ▸ hload⟩
    · obtain ⟨l', hl', hm, hload'⟩ := h.past hτ
      exact ⟨l', .inl hl', hm, hload'⟩
  · intro l' r' hl' hm hload'
    rcases hl' with hl' | rfl
    · have hplain := h.plain hl' hm hload'
      rw [Function.comp_apply, hstays hplain]
      exact hplain
    · obtain ⟨_, -, -, hr'⟩ := hload'
      cases hr.symm.trans hr'
      rw [Function.comp_apply, hτ'r]
      exact hv
  -- What has been replaced before was replaced by something settled, which is not the load.
  · intro x hx
    by_cases hτ : τ x = r
    · by_cases hmoved : τ x = x
      · exact ⟨l, hnew, hmet, hmoved ▸ hτ ▸ hload⟩
      · obtain ⟨l', hl', hm, hload'⟩ := h.past hmoved
        exact absurd hτ (hne (h.plain hl' hm hload'))
    · exact absurd (DataFlow.swap_of_ne hτ) hx

end Renamed

end Renamed

end Promotion

end MiddleEnd
