import MiddleEnd.Proofs.SlotRenaming

/-!
# The walk that renames slots

The walk goes down the dominator tree with the versions of the slots: the phis of a block are
versions, stores leave new ones behind, and loads give way to them. The phis of the successors hear
of the versions at the end of the block. When the walk comes back to the root, every load that
control comes to has been replaced, and every added phi knows what comes along the edges from the
blocks that control comes to.
-/

namespace MiddleEnd

namespace Promotion

open Func

theorem State.accessed?_none {s : State} {inst : Inst} (hform : Verify.formFits inst = true)
    (hnone : ∀ x ∈ inst.args, s.slotAt? x = none) : s.accessed? inst = .ok none := by
  unfold State.accessed?
  split
  · next hop =>
    cases inst with
    | unary op x => exact congrArg Except.ok (hnone x List.mem_cons_self)
    | binary op x y => exact congrArg Except.ok (hnone x List.mem_cons_self)
    | _ =>
      rcases hop with hop | hop <;> simp [Inst.op] at hop <;> subst hop <;>
        simp [Verify.formFits] at hform
  · rfl

/-- Where the walk is: what it has seen has been replaced and what it has filled is there. -/
def Walked (p : State) (entry : BlockId) (t : DominatorTree) (seen : InstId → Prop)
    (filled : InstId → BlockId → Prop) (τ : ValueId → ValueId) (s : State) : Prop :=
  ∃ g fill, s = p.withFlow g ∧ Renamed p entry t seen filled g τ fill

section Access

variable {f : Func} {entry b : BlockId} {t : DominatorTree} {p s : State}
  {seen seen' : InstId → Prop} {filled filled' : InstId → BlockId → Prop} {g : DataFlow}
  {τ : ValueId → ValueId} {fill : InstId → List (ValueId × BlockId)} {i : InstId} {inst : Inst}
  {x : ValueId} {slot : Slot} {held? : ValueId → Option ValueId} {versions : State.Versions}

namespace Planted

theorem forms (h : Planted f entry t p) (hi : p.flow.inst? i = some inst) :
    Verify.formFits inst = true := by
  by_cases hm : i ∈ p.added
  · rw [h.inst?_added hm] at hi
    cases hi
    rfl
  · exact h.regular.forms ((h.inst?_iff hm).symm.trans hi)

theorem access_cases (h : Planted f entry t p) (hi : p.flow.inst? i = some inst) :
    (∃ slot ∈ p.slots, inst = .unary .load slot.address) ∨
    (∃ slot ∈ p.slots, ∃ y, inst = .binary .store slot.address y) ∨
      ∀ slot ∈ p.slots, slot.address ∉ inst.args := by
  by_cases hnone : ∀ slot ∈ p.slots, slot.address ∉ inst.args
  · exact .inr (.inr hnone)
  · simp only [Classical.not_forall, Classical.not_not] at hnone
    obtain ⟨slot, hs, hm⟩ := hnone
    rcases (h.hidden_here hs).uses hi hm with he | ⟨y, -, he⟩
    · exact .inl ⟨slot, hs, he⟩
    · exact .inr (.inl ⟨slot, hs, y, he⟩)

end Planted

theorem Rewritten.slotAt?_eq (h : Rewritten p entry t seen filled g τ fill)
    (hP : Planted f entry t p) (x : ValueId) :
    p.slotAt? (τ x) = p.slotAt? x := by
  by_cases hx : τ x = x
  · rw [hx]
  · obtain ⟨⟨l, hl⟩, haddr⟩ := h.moved hx
    rw [Planted.slotAt?_none haddr, Planted.slotAt?_none fun slot hs => hP.load_ne_address hl hs]

theorem Rewritten.inst?_old (h : Rewritten p entry t seen filled g τ fill)
    (hi : p.flow.inst? i = some inst) (hn : i ∉ p.added) : g.inst? i = some (inst.mapArgs τ) := by
  rw [h.rewired.inst?, hi, Option.map_some]
  exact congrArg some (if_neg hn)

theorem Renamed.current_ok (h : Renamed p entry t seen filled g τ fill) (hP : Planted f entry t p)
    (hl : Latest p entry seen τ held? versions) (hs : slot ∈ p.slots) :
    ∃ v g', (p.withFlow g).current versions slot = (v, p.withFlow g') ∧
      Renamed p entry t seen filled g' τ fill ∧ g'.ty v = .ok slot.ty ∧ p.Settled entry
      (fun _ => False) v ∧ (p.withFlow g').func.Stands τ v (held? slot.address) := by
  unfold State.current
  rw [hl.found hs]
  cases hheld : held? slot.address with
  | some w =>
    obtain ⟨hw, hty⟩ := hl.settled hs hheld
    obtain ⟨o, ho, hoty⟩ := DataFlow.ty_eq_ok.1 hty
    exact ⟨τ w, g, rfl, h, hoty ▸ h.typed ho, h.settled hw, rfl⟩
  | none =>
    obtain ⟨v, g', hg, hv, hg', hR⟩ := DataFlow.shared_ok h.exact (o := .undef slot.ty) (.inr rfl)
    have h' := h.extend hg' hR
    refine ⟨v, g', ?_, h', DataFlow.ty_of_origin hv, h'.settled_of_undef hP hv, slot.ty, hv⟩
    have hundef : (p.withFlow g).flow.undef slot.ty = (v, g') := hg
    simp only [Option.map_none, hundef]
    rfl

theorem Planted.settled (h : Planted f entry t p) {rest : List InstId}
    (hx : p.func.Avail p.func.Leads entry b rest x ∨ p.func.Stranded entry x)
    (hbehind : ∀ {j}, p.func.Behind p.func.Leads entry b rest j → seen j)
    (haddr : ∀ slot ∈ p.slots, x ≠ slot.address) :
    p.Settled entry seen x where
  address := haddr
  loaded {l} hm hl := by
    obtain ⟨slot, -, -, hr⟩ := hl
    obtain ⟨ty, ho, -⟩ := h.coherent.flow.result_origin hr
    rcases hx with hx | ⟨ty', j, home, xs, ho', hxs, hj, hn⟩
    · exact hbehind (hx ho)
    · cases ho.symm.trans ho'
      obtain ⟨c, ys, hc, hys, hlys⟩ := hm
      obtain rfl := h.coherent.layout.one_block hxs hys hj hlys
      exact absurd hc hn

end Access

/-- The walk has seen some more instructions, and the versions are those behind them. -/
def Passed (p : State) (entry : BlockId) (t : DominatorTree) (seen new : InstId → Prop)
    (filled : InstId → BlockId → Prop) (τ : ValueId → ValueId) (held? : ValueId → Option ValueId)
    (r : State × State.Versions) : Prop :=
  ∃ τ', Walked p entry t (fun j => seen j ∨ new j) filled τ' r.1 ∧ Onward p entry seen τ τ' ∧
    Latest p entry (fun j => seen j ∨ new j) τ' held? r.2

section Walk

variable {f : Func} {entry b : BlockId} {t : DominatorTree} {p : State} {seen : InstId → Prop}
  {filled : InstId → BlockId → Prop} {g : DataFlow} {τ : ValueId → ValueId}
  {fill : InstId → List (ValueId × BlockId)} {i : InstId} {inst : Inst} {y : ValueId} {slot : Slot}
  {versions : State.Versions} {pre post : List InstId}

theorem State.heldBehind_concat {a : ValueId} :
    p.heldBehind t b (pre ++ [i]) a = p.func.lastStored a (p.heldBehind t b pre a) [i] :=
  lastStored_append

theorem renameInst_load (hP : Planted f entry t p) (h : Renamed p entry t seen filled g τ fill)
    (hb : Connects p.func.Leads entry b) (hxs : p.func.insts b = .ok (pre ++ i :: post))
    (hnew : ¬ seen i) (hl : Latest p entry seen τ (p.heldBehind t b pre) versions)
    (hs : slot ∈ p.slots) (hi : p.flow.inst? i = some (.unary .load slot.address)) :
    ((p.withFlow g).renameInst versions i).Yields
      (Passed p entry t seen (· = i) filled τ (p.heldBehind t b (pre ++ [i]))) := by
  obtain ⟨r, hr, hrty⟩ := hP.load hs hi
  have hold := (hP.old_of_plain hi (fun he => by cases he)).1
  unfold State.renameInst
  refine (Run.yields_lift ⟨_, DataFlow.inst_eq_ok.2 (h.toRewritten.inst?_old hi hold), rfl⟩).bind ?_
  rintro _ rfl
  have hacc : (p.withFlow g).accessed? (.unary .load (τ slot.address)) = .ok (some slot) :=
    congrArg Except.ok ((h.toRewritten.slotAt?_eq hP _).trans (hP.slotAt?_eq hs))
  refine (Run.yields_lift ⟨_, hacc, rfl⟩).bind ?_
  rintro _ rfl
  obtain ⟨v, g', hcur, h', hty, hv, hst⟩ := h.current_ok hP hl hs
  obtain ⟨n, g'', τ', fill', hrep, h'', hon⟩ := h'.replace hP hb hxs hnew hs hi hr hty hv hst
  have hop : (Inst.mapArgs τ (.unary .load slot.address)).op ≠ .store := fun he => by cases he
  dsimp only
  rw [if_neg hop, hcur]
  have hres : g'.result i = .ok r := DataFlow.result_eq_ok.2 ((h'.rewired.result? i).trans hr)
  refine (Run.yields_lift ⟨r, hres, rfl⟩).bind ?_
  rintro _ rfl
  refine (Run.yields_log (P := fun _ => True) trivial).bind fun _ _ => ?_
  have hbuild : (p.withFlow g').builder.replaceUse r v = .ok (p.withFlow g'').builder := by
    unfold Builder.replaceUse
    rw [show (p.withFlow g').builder.flow.replaceUse r v = _ from hrep]
    rfl
  refine (Run.yields_lift ⟨_, hbuild, rfl⟩).bind ?_
  rintro _ rfl
  refine Run.yields_pure ⟨τ', ⟨g'', fill', rfl, h''⟩, hon,
    (hl.onward hon fun _ => .inl).congr fun slot' _ => ?_⟩
  rw [State.heldBehind_concat]
  exact lastStored_other hi fun y he => by cases he

theorem renameInst_store (hP : Planted f entry t p) (h : Renamed p entry t seen filled g τ fill)
    (hb : Connects p.func.Leads entry b) (hxs : p.func.insts b = .ok (pre ++ i :: post))
    (hbehind : ∀ {j}, p.func.Behind p.func.Leads entry b (i :: post) j → seen j)
    (hl : Latest p entry seen τ (p.heldBehind t b pre) versions) (hs : slot ∈ p.slots)
    (hi : p.flow.inst? i = some (.binary .store slot.address y)) :
    ((p.withFlow g).renameInst versions i).Yields
      (Passed p entry t seen (· = i) filled τ (p.heldBehind t b (pre ++ [i]))) := by
  have hold := (hP.old_of_plain hi (fun he => by cases he)).1
  unfold State.renameInst
  refine (Run.yields_lift ⟨_, DataFlow.inst_eq_ok.2 (h.toRewritten.inst?_old hi hold), rfl⟩).bind ?_
  rintro _ rfl
  have hacc : (p.withFlow g).accessed? (.binary .store (τ slot.address) (τ y)) = .ok (some slot) :=
    congrArg Except.ok ((h.toRewritten.slotAt?_eq hP _).trans (hP.slotAt?_eq hs))
  refine (Run.yields_lift ⟨_, hacc, rfl⟩).bind ?_
  rintro _ rfl
  have hop : (Inst.mapArgs τ (.binary .store slot.address y)).op = .store := rfl
  dsimp only
  rw [if_pos hop]
  refine (Run.yields_lift ⟨τ y, rfl, rfl⟩).bind ?_
  rintro _ rfl
  have hpass := h.pass (i := i) fun r hr => by
    obtain ⟨_, -, hi', -⟩ := hr
    cases hi.symm.trans hi'
  obtain ⟨hyty, hyaddr⟩ := hP.store hs hi
  have hy :=
    hP.settled (hP.dominated_here.body hb hxs hi rfl (List.mem_cons_of_mem _ List.mem_cons_self))
      hbehind hyaddr
  have hon : Onward p entry seen τ τ := .refl ..
  have hl' := hl.onward hon fun (j : InstId) => Or.inl (b := j = i)
  refine Run.yields_pure ⟨τ, ⟨g, fill, rfl, hpass⟩, hon, ?_⟩
  -- The store leaves its value in its own slot and nothing in the others.
  have hheld : ∀ slot' ∈ p.slots, p.heldBehind t b (pre ++ [i]) slot'.address =
      if slot'.address = slot.address then some y else p.heldBehind t b pre slot'.address := by
    intro slot' hs'
    rw [State.heldBehind_concat]
    split
    · next he => exact he ▸ lastStored_store hi
    · next hne =>
      refine lastStored_other hi fun z he => hne ?_
      rw [Inst.binary.injEq] at he
      exact he.2.1.symm
  refine ⟨fun {slot'} hs' => ?_, fun {slot' w} hs' hw => ?_⟩
  · rw [hheld slot' hs']
    by_cases he : slot'.address = slot.address
    · rw [if_pos he, he, List.lookup_cons_self]
      rfl
    · rw [if_neg he, ← hl'.found hs', List.lookup_cons, beq_false_of_ne he]
  · rw [hheld slot' hs'] at hw
    by_cases he : slot'.address = slot.address
    · rw [if_pos he] at hw
      cases hw
      exact ⟨hy.mono fun _ => .inl, hP.address_inj hs' hs he ▸ hyty⟩
    · rw [if_neg he] at hw
      exact hl'.settled hs' hw

theorem renameInst_other (hP : Planted f entry t p) (h : Renamed p entry t seen filled g τ fill)
    (hl : Latest p entry seen τ (p.heldBehind t b pre) versions) (hi : p.flow.inst? i = some inst)
    (hnone : ∀ slot ∈ p.slots, slot.address ∉ inst.args) :
    ((p.withFlow g).renameInst versions i).Yields
      (Passed p entry t seen (· = i) filled τ (p.heldBehind t b (pre ++ [i]))) := by
  have hpass := h.pass (i := i) fun r hr => by
    obtain ⟨slot, hs, hi', -⟩ := hr
    cases hi.symm.trans hi'
    exact hnone slot hs List.mem_cons_self
  have hinst : g.inst? i = some (p.rewritten τ fill i inst) := by
    rw [h.rewired.inst?, hi, Option.map_some]
  have hacc : (p.withFlow g).accessed? (p.rewritten τ fill i inst) = .ok none := by
    unfold State.rewritten
    split
    · rfl
    · have hmatch : Inst.Matches (fun _ _ => True) inst (inst.mapArgs τ) :=
        .of_mapArgs fun _ _ => trivial
      refine State.accessed?_none (hmatch.forms_eq.trans (hP.forms hi)) fun x hx => ?_
      rw [Inst.args_mapArgs] at hx
      obtain ⟨v, hv, rfl⟩ := List.mem_map.1 hx
      refine (h.toRewritten.slotAt?_eq hP v).trans (Planted.slotAt?_none fun slot hs he => ?_)
      exact hnone slot hs (he ▸ hv)
  unfold State.renameInst
  refine (Run.yields_lift ⟨_, DataFlow.inst_eq_ok.2 hinst, rfl⟩).bind ?_
  rintro _ rfl
  refine (Run.yields_lift ⟨_, hacc, rfl⟩).bind ?_
  rintro _ rfl
  have hon : Onward p entry seen τ τ := .refl ..
  refine Run.yields_pure ⟨τ, ⟨g, fill, rfl, hpass⟩, hon,
    (hl.onward hon fun _ => .inl).congr fun slot hs => ?_⟩
  rw [State.heldBehind_concat]
  refine lastStored_other hi ?_
  rintro y rfl
  exact hnone slot hs List.mem_cons_self

theorem renameInst_ok (hP : Planted f entry t p) {s : State} (hw : Walked p entry t seen filled τ s)
    (hb : Connects p.func.Leads entry b) (hxs : p.func.insts b = .ok (pre ++ i :: post))
    (hbehind : ∀ {j}, p.func.Behind p.func.Leads entry b (i :: post) j → seen j) (hnew : ¬ seen i)
    (hl : Latest p entry seen τ (p.heldBehind t b pre) versions) :
    (s.renameInst versions i).Yields
      (Passed p entry t seen (· = i) filled τ (p.heldBehind t b (pre ++ [i]))) := by
  obtain ⟨g, fill, rfl, h⟩ := hw
  have hinst : ∃ inst, p.flow.inst? i = some inst :=
    hP.coherent.inst_of_mem hxs (List.mem_append_right _ List.mem_cons_self)
  obtain ⟨inst, hi⟩ := hinst
  rcases hP.access_cases hi with ⟨slot, hs, rfl⟩ | ⟨slot, hs, y, rfl⟩ | hnone
  · exact renameInst_load hP h hb hxs hnew hl hs hi
  · exact renameInst_store hP h hb hxs hbehind hl hs hi
  · exact renameInst_other hP h hl hi hnone

theorem Walked.congr {seen' : InstId → Prop} {filled' : InstId → BlockId → Prop} {s : State}
    (h : Walked p entry t seen filled τ s) (hseen : ∀ j, seen j ↔ seen' j)
    (hfilled : ∀ j q, filled j q ↔ filled' j q) :
    Walked p entry t seen' filled' τ s := by
  rwa [show seen' = seen from funext fun j => propext (hseen j).symm,
    show filled' = filled from funext fun j => funext fun q => propext (hfilled j q).symm]

theorem behind_split {f : Func} {E : BlockId → BlockId → Prop} {j : InstId}
    (hxs : f.insts b = .ok (pre ++ post)) (hj : f.Behind E entry b post j) :
    f.Behind E entry b (pre ++ post) j ∨ j ∈ pre := by
  obtain ⟨home, xs, hhome, hjx, hg, hout⟩ := hj
  by_cases he : home = b
  · subst he
    cases hxs.symm.trans hhome
    exact .inr ((List.mem_append.1 hjx).resolve_right (hout rfl))
  · exact .inl ⟨home, xs, hhome, hjx, hg, fun h => absurd h he⟩

theorem renameInsts_ok (hP : Planted f entry t p) {s : State}
    (hw : Walked p entry t seen filled τ s) (hb : Connects p.func.Leads entry b) {xs : List InstId}
    (hxs : p.func.insts b = .ok xs)
    (hbehind : ∀ {j}, p.func.Behind p.func.Leads entry b xs j → seen j) (hnew : ∀ j ∈ xs, ¬ seen j)
    (hl : Latest p entry seen τ (p.heldBehind t b []) versions) :
    (xs.foldlM (fun (r : State × State.Versions) i => r.1.renameInst r.2 i) (s, versions)).Yields
      (Passed p entry t seen (· ∈ xs) filled τ (p.heldBehind t b xs)) := by
  have hstart : Passed p entry t seen (· ∈ []) filled τ (p.heldBehind t b []) (s, versions) := by
    have hsub : ∀ j, seen j ↔ seen j ∨ j ∈ [] := fun j => by simp
    exact ⟨τ, hw.congr hsub fun _ _ => .rfl, .refl .., hl.onward (.refl ..) fun j => (hsub j).1⟩
  refine Run.yields_foldlM (fun done r => Passed p entry t seen (· ∈ done) filled τ
    (p.heldBehind t b done) r) hstart ?_
  rintro pre i post ⟨s', versions'⟩ rfl ⟨τ', hw', hon, hl'⟩
  have hn := hP.coherent.layout.insts_nodup hxs
  refine (renameInst_ok hP hw' hb hxs ?_ ?_ hl').mono ?_
  · intro j hj
    exact (behind_split hxs hj).imp_left hbehind
  · rintro (hs | hs)
    · exact hnew i (List.mem_append_right _ List.mem_cons_self) hs
    · exact List.disjoint_of_nodup_append hn hs List.mem_cons_self
  · rintro r ⟨τ'', hw'', hon', hl''⟩
    have hsub : ∀ j, (seen j ∨ j ∈ pre) ∨ j = i ↔ seen j ∨ j ∈ pre ++ [i] :=
      fun j => by simp [or_assoc]
    exact ⟨τ'', hw''.congr hsub fun _ _ => .rfl, hon.trans hon' fun j => .inl,
      hl''.onward (.refl ..) fun j => (hsub j).1⟩

theorem Planted.phi_not_load (h : Planted f entry t p) {r : ValueId} (hi : (i, slot) ∈ p.phisAt b)
    (hr : p.flow.result? i = some r) (l : InstId) : ¬ p.Loads l r := by
  obtain ⟨-, hinst, v, hv, ho⟩ := h.phi hi
  cases hr.symm.trans hv
  rintro ⟨slot', -, hload, hres⟩
  have he : i = l := h.coherent.flow.definer_eq hres ho
  rw [← he] at hload
  cases hinst.symm.trans hload

theorem Planted.phi_settled (h : Planted f entry t p) {r : ValueId} (hi : (i, slot) ∈ p.phisAt b)
    (hr : p.flow.result? i = some r) : p.Settled entry seen r ∧ p.flow.ty r = .ok slot.ty := by
  obtain ⟨-, hinst, v, hv, ho⟩ := h.phi hi
  cases hr.symm.trans hv
  refine ⟨⟨fun slot' hs => ?_, fun _ hl => absurd hl (h.phi_not_load hi hr _)⟩,
    DataFlow.ty_of_origin ho⟩
  rintro rfl
  have he : i = slot'.inst := h.coherent.flow.definer_eq (h.hidden_here hs).result ho
  have hslot := (h.hidden_here hs).slot
  rw [← he] at hslot
  cases hinst.symm.trans hslot

def State.mergedBy (p : State) (phis : List (InstId × Slot)) (a : ValueId) : Option ValueId :=
  (phis.find? (·.2.address = a)).bind fun phi => p.flow.result? phi.1

theorem State.mergedBy_concat {phis : List (InstId × Slot)} {r : ValueId}
    (hr : p.flow.result? i = some r) (hfirst : ∀ phi ∈ phis, phi.2.address ≠ slot.address)
    (a : ValueId) :
    p.mergedBy (phis ++ [(i, slot)]) a = if a = slot.address then some r else
      p.mergedBy phis a := by
  unfold State.mergedBy
  rw [List.find?_append]
  split
  · next he =>
    have hnone : phis.find? (·.2.address = a) = none := List.find?_eq_none.2 fun phi hphi => by
      simpa [he] using hfirst phi hphi
    rw [hnone]
    simp [he, hr]
  · next hne => simp [Ne.symm hne]

theorem mergePhis_ok (hP : Planted f entry t p) (h : Renamed p entry t seen filled g τ fill)
    {held? : ValueId → Option ValueId} (hl : Latest p entry seen τ held? versions) :
    ((p.phisAt b).foldlM (fun (versions : State.Versions) (phi : InstId × Slot) => do
        return (phi.2.address, ← (p.withFlow g).flow.result phi.1) :: versions : _ → _ →
        Run State.Versions) versions).Yields
      (Latest p entry seen τ fun a => (p.mergedAt a b).or (held? a)) := by
  refine Run.yields_foldlM (fun done versions => Latest p entry seen τ
    (fun a => (p.mergedBy done a).or (held? a)) versions) hl ?_
  rintro pre ⟨i, slot⟩ post versions' hsplit hl'
  have hmem : (i, slot) ∈ p.phisAt b := hsplit ▸ List.mem_append_right _ List.mem_cons_self
  have hs := (hP.merges.1 (List.mem_map_of_mem hmem)).1
  obtain ⟨-, -, r, hr, -⟩ := hP.phi hmem
  have hphi : p.Settled entry seen r ∧ p.flow.ty r = .ok slot.ty := hP.phi_settled hmem hr
  have hfixed : τ r = r := h.toRewritten.fixed_of_not_load (hP.phi_not_load hmem hr)
  have hres : (p.withFlow g).flow.result i = .ok r :=
    DataFlow.result_eq_ok.2 ((h.rewired.result? i).trans hr)
  refine (Run.yields_lift ⟨r, hres, rfl⟩).bind ?_
  rintro _ rfl
  have hfirst : ∀ phi ∈ pre, phi.2.address ≠ slot.address := by
    intro phi hphi he
    have hn := hP.once b
    rw [hsplit, List.map_append, List.map_cons] at hn
    have hs' := (hP.merges.1 (List.mem_map_of_mem (hsplit ▸ List.mem_append_left _ hphi))).1
    refine (List.nodup_append.1 hn).2.2 phi.2 (List.mem_map_of_mem hphi) slot List.mem_cons_self ?_
    exact hP.address_inj hs' hs he
  refine Run.yields_pure ⟨fun {slot'} hs' => ?_, fun {slot' w} hs' hw => ?_⟩
  · rw [State.mergedBy_concat hr hfirst]
    by_cases he : slot'.address = slot.address
    · rw [if_pos he, he, List.lookup_cons_self, Option.some_or, Option.map_some, hfixed]
    · rw [if_neg he, ← hl'.found hs', List.lookup_cons, beq_false_of_ne he]
  · rw [State.mergedBy_concat hr hfirst] at hw
    by_cases he : slot'.address = slot.address
    · rw [if_pos he] at hw
      cases hw
      exact ⟨hphi.1, hP.address_inj hs' hs he ▸ hphi.2⟩
    · rw [if_neg he] at hw
      exact hl'.settled hs' hw

/-- An added phi has something to hear about the edge from a block. -/
def State.Fed (p : State) (i : InstId) (q : BlockId) : Prop :=
  ∃ c slot, (i, slot) ∈ p.phisAt c ∧ p.func.Leads q c

theorem Rewritten.leads_eq (h : Rewritten p entry t seen filled g τ fill)
    (hP : Planted f entry t p) :
    (p.withFlow g).func.Leads = p.func.Leads := by
  rw [hP.leads_eq]
  refine hP.leads_of_last hP.thinned.alike.blocks.symm fun {c front j jnst} hxs hold hj _ => ?_
  refine ⟨_, jnst.mapArgs τ, (hP.heads hxs).trans (congrArg _ (List.append_assoc ..).symm), ?_,
    by simp, by simp⟩
  exact h.inst?_old (hP.inst?_old hj) hold

theorem feed_ok (hP : Planted f entry t p) {s : State} (hw : Walked p entry t seen filled τ s)
    {xs : List InstId} (hxs : p.func.insts b = .ok xs)
    (hl : Latest p entry seen τ (p.heldBehind t b xs) versions) {c : BlockId}
    (hphi : (i, slot) ∈ p.phisAt c) (hnew : ¬ filled i b) :
    (do return (s.current versions slot).2.withFlow (← (s.current versions slot).2.flow.addIncoming
      i (s.current versions slot).1 b) : Run State).Yields
      (Walked p entry t seen (fun j q => filled j q ∨ (j = i ∧ q = b)) τ) := by
  obtain ⟨g, fill, rfl, h⟩ := hw
  obtain ⟨v, g', hcur, h', hty, hv, hst⟩ :=
    h.current_ok hP hl (hP.merges.1 (List.mem_map_of_mem hphi)).1
  have hend : p.heldBehind t b xs slot.address = heldAtEnd p.func t (p.mergedAt slot.address)
      slot.address b :=
    (heldAtEnd_eq hxs).symm
  obtain ⟨g'', fill', hadd, h''⟩ := h'.feed hP hphi hnew hty hv.address (hend ▸ hst)
  rw [hcur]
  refine (Run.yields_lift ⟨g'', hadd, rfl⟩).bind ?_
  rintro _ rfl
  exact Run.yields_pure ⟨g'', fill', rfl, h''⟩

/-- Every phi added to a successor of a block is told what comes from the block. -/
theorem fillSuccessors_ok (hP : Planted f entry t p) {s : State}
    (hw : Walked p entry t seen filled τ s) {xs : List InstId} (hxs : p.func.insts b = .ok xs)
    (hnew : ∀ i, ¬ filled i b) (hl : Latest p entry seen τ (p.heldBehind t b xs) versions) :
    (s.fillSuccessors versions b).Yields
      (Walked p entry t seen (fun i q => filled i q ∨ (q = b ∧ p.Fed i b)) τ) := by
  obtain ⟨g, fill, rfl, h⟩ := hw
  obtain ⟨succs, hsuccs⟩ :=
    Func.successors_ok (f := (p.withFlow g).func) (Layout.mem_blocks_iff.2 ⟨xs, hxs⟩)
  have hleads : ∀ c, c ∈ succs ↔ p.func.Leads b c := by
    intro c
    rw [← h.toRewritten.leads_eq hP]
    constructor
    · exact fun hc => ⟨succs, hsuccs, hc⟩
    · rintro ⟨succs', hsuccs', hc⟩
      cases hsuccs.symm.trans hsuccs'
      exact hc
  have hn := Func.successors_nodup hsuccs
  unfold State.fillSuccessors
  refine (Run.yields_lift ⟨succs, hsuccs, rfl⟩).bind ?_
  rintro _ rfl
  refine (Run.yields_foldlM (fun done => Walked p entry t seen
    (fun i q => filled i q ∨ (q = b ∧ ∃ c ∈ done, ∃ slot, (i, slot) ∈ p.phisAt c)) τ) ?_ ?_).mono ?_
  · refine Walked.congr ⟨g, fill, rfl, h⟩ (fun _ => .rfl) fun i q => ?_
    simp
  · rintro done succ post s hsplit hs
    have hphis : (s.phis.get? succ).getD [] = p.phisAt succ := by
      obtain ⟨g, fill, rfl, -⟩ := hs
      rfl
    rw [hphis]
    refine (Run.yields_foldlM (fun told => Walked p entry t seen (fun i q => filled i q ∨ (q = b ∧
      ((∃ c ∈ done, ∃ slot, (i, slot) ∈ p.phisAt c) ∨ ∃ slot, (i, slot) ∈ told))) τ) ?_ ?_).mono ?_
    · refine hs.congr (fun _ => .rfl) fun i q => ?_
      simp
    · rintro told ⟨i, slot⟩ untold s hsplit' hs
      have hphi : (i, slot) ∈ p.phisAt succ := hsplit' ▸ List.mem_append_right _ List.mem_cons_self
      refine (feed_ok hP hs hxs hl hphi ?_).mono fun s' hs' =>
        hs'.congr (fun _ => .rfl) fun j q => ?_
      · rintro (hf | ⟨-, ⟨c, hc, slot', hphi'⟩ | ⟨slot', hphi'⟩⟩)
        · exact hnew i hf
        · obtain ⟨rfl, -⟩ := hP.phi_unique hphi' hphi
          rw [hsplit] at hn
          exact List.disjoint_of_nodup_append hn hc List.mem_cons_self
        · obtain ⟨-, rfl⟩ := hP.phi_unique hphi (hsplit' ▸ List.mem_append_left _ hphi')
          have honce := hP.once succ
          rw [hsplit', List.map_append, List.map_cons] at honce
          exact List.disjoint_of_nodup_append honce (List.mem_map_of_mem hphi') List.mem_cons_self
      · have hone : (∃ slot', (j, slot') ∈ told ++ [(i, slot)]) ↔
            (∃ slot', (j, slot') ∈ told) ∨ j = i := by
          simp [exists_or]
        rw [hone, or_assoc, and_comm (a := j = i), ← and_or_left, or_assoc]
    · intro s hs
      refine hs.congr (fun _ => .rfl) fun i q => ?_
      simp [or_and_right, exists_or]
  · intro s hs
    refine hs.congr (fun _ => .rfl) fun i q => or_congr_right (and_congr_right fun _ => ?_)
    constructor
    · rintro ⟨c, hc, slot, hphi⟩
      exact ⟨c, slot, hphi, (hleads c).1 hc⟩
    · rintro ⟨c, slot, hphi, hc⟩
      exact ⟨c, (hleads c).2 hc, slot, hphi⟩

/-- From a block on, the walk renames what is below the block and tells the phis what comes from
there. -/
def State.Walks (p : State) (entry : BlockId) (t : DominatorTree) (n : Nat) (b : BlockId) : Prop :=
  ∀ {seen : InstId → Prop} {filled : InstId → BlockId → Prop} {τ : ValueId → ValueId}
    {versions : State.Versions} {s : State}, Walked p entry t seen filled τ s →
    (∀ {xs j}, p.func.insts b = .ok xs → p.func.Behind p.func.Leads entry b xs j → seen j) →
    (∀ j, p.func.Below entry b j → ¬ seen j) →
    (∀ i q, Guards p.func.Leads entry b q → ¬ filled i q) →
    Latest p entry seen τ (fun a =>
    (t.idom? b).bind (heldAtEnd p.func t (p.mergedAt a) a)) versions →
    (State.rename t n versions s b).Yields fun s' => ∃ τ',
      Walked p entry t (fun j => seen j ∨ p.func.Below entry b j)
        (fun i q => filled i q ∨ (Guards p.func.Leads entry b q ∧ p.Fed i q)) τ' s' ∧
        Onward p entry seen τ τ'

namespace Planted

theorem below_here (hP : Planted f entry t p) {c : BlockId} {j : InstId} {xs : List InstId}
    (hxs : p.func.insts b = .ok xs) (hj : j ∈ xs) (h : p.func.Below entry c j) :
    Guards p.func.Leads entry c b := by
  obtain ⟨home, ys, hhome, hjy, hg⟩ := h
  obtain rfl := hP.coherent.layout.one_block hhome hxs hjy hj
  exact hg

theorem below_apart (hP : Planted f entry t p) {c d : BlockId} {j : InstId}
    (hapart : ∀ {e}, Guards p.func.Leads entry c e → ¬ Guards p.func.Leads entry d e)
    (h : p.func.Below entry c j) :
    ¬ p.func.Below entry d j := by
  obtain ⟨home, xs, hxs, hj, hg⟩ := h
  exact fun h' => hapart hg (hP.below_here hxs hj h')

theorem behind_child (hP : Planted f entry t p) {d : BlockId} (hd : t.idom? d = some b) {j : InstId}
    {xs ys : List InstId} (hxs : p.func.insts b = .ok xs) (hys : p.func.insts d = .ok ys)
    (h : p.func.Behind p.func.Leads entry d ys j) :
    p.func.Behind p.func.Leads entry b xs j ∨ j ∈ xs := by
  obtain ⟨-, -, hnearest⟩ := (hP.tree_here.idom?_iff d b).1 hd
  obtain ⟨home, zs, hhome, hj, hg, hout⟩ := h
  have hne : home ≠ d := by
    rintro rfl
    cases hys.symm.trans hhome
    exact hout rfl hj
  by_cases hb : home = b
  · subst hb
    cases hxs.symm.trans hhome
    exact .inr hj
  · exact .inl ⟨home, zs, hhome, hj, hnearest home hne hg, fun he => absurd he hb⟩

end Planted

/-- Every child of a block is walked from where the children before it have left things. -/
theorem children_ok (hP : Planted f entry t p) {n : Nat} {cs : List BlockId}
    {xs : List InstId} {s : State} (ih : ∀ c, t.idom? c = some b → p.Walks entry t n c)
    (hxs : p.func.insts b = .ok xs) (hcsn : cs.Nodup) (hcs : ∀ c ∈ cs, t.idom? c = some b)
    (hw : Walked p entry t (fun j => seen j ∨ j ∈ xs) (fun i q => filled i q ∨
      (q = b ∧ p.Fed i b)) τ s)
    (hbehind : ∀ {j}, p.func.Behind p.func.Leads entry b xs j → seen j)
    (hnew : ∀ j, p.func.Below entry b j → ¬ seen j)
    (hunfilled : ∀ i q, Guards p.func.Leads entry b q → ¬ filled i q)
    (hl : Latest p entry (fun j => seen j ∨ j ∈ xs) τ (p.heldBehind t b xs) versions) :
    (cs.foldlM (State.rename t n versions) s).Yields fun s' => ∃ τ',
      Walked p entry t (fun j => (seen j ∨ j ∈ xs) ∨ ∃ c ∈ cs, p.func.Below entry c j)
        (fun i q => (filled i q ∨ (q = b ∧ p.Fed i b)) ∨ ∃ c ∈ cs, Guards p.func.Leads entry c q ∧
          p.Fed i q) τ' s' ∧
      Onward p entry (fun j => seen j ∨ j ∈ xs) τ τ' := by
  have ht := hP.tree_here
  refine (Run.yields_foldlM (fun done s' => ∃ τ',
    Walked p entry t (fun j => (seen j ∨ j ∈ xs) ∨ ∃ c ∈ done, p.func.Below entry c j)
      (fun i q => (filled i q ∨ (q = b ∧ p.Fed i b)) ∨ ∃ c ∈ done, Guards p.func.Leads entry c q ∧
      p.Fed i q) τ' s' ∧
    Onward p entry (fun j => seen j ∨ j ∈ xs) τ τ') ?_ ?_).mono fun _ => id
  · refine ⟨τ, hw.congr (fun j => ?_) fun i q => ?_, .refl ..⟩
    · simp
    · simp
  · rintro done d post s₁ hsplit ⟨τ₁, hw₁, hon₁⟩
    have hchild : ∀ {c}, c ∈ done ++ d :: post → t.idom? c = some b := fun hc => hcs _ (hsplit ▸ hc)
    have hd := hchild (List.mem_append_right _ List.mem_cons_self)
    obtain ⟨hbd, hgd, -⟩ := (ht.idom?_iff d b).1 hd
    have hself : ¬ Guards p.func.Leads entry d b := fun hg => hbd (hgd.antisymm hg)
    have hapart : ∀ {c e}, c ∈ done → Guards p.func.Leads entry c e →
        ¬ Guards p.func.Leads entry d e := by
      intro c e hc hg hg'
      obtain rfl := ht.children_apart (hchild (List.mem_append_left _ hc)) hd hg hg'
      rw [hsplit] at hcsn
      exact List.disjoint_of_nodup_append hcsn hc List.mem_cons_self
    refine (ih d hd hw₁ ?_ ?_ ?_ ?_).mono ?_
    · exact fun hys h => .inl ((hP.behind_child hd hxs hys h).imp hbehind id)
    · rintro j hbelow ((hs | hj) | ⟨c, hc, hbelow'⟩)
      · exact hnew j (hbelow.trans hgd) hs
      · exact hself (hP.below_here hxs hj hbelow)
      · exact hP.below_apart (hapart hc) hbelow' hbelow
    · rintro i q hg ((hf | ⟨rfl, -⟩) | ⟨c, hc, hg', -⟩)
      · exact hunfilled i q (hgd.trans hg) hf
      · exact hself hg
      · exact hapart hc hg' hg
    · refine (hl.onward hon₁ fun j => Or.inl (b := ∃ c ∈ done, p.func.Below entry c j)).congr
        fun slot _ => ?_
      rw [hd]
      exact heldAtEnd_eq hxs
    · rintro s₂ ⟨τ₂, hw₂, hon₂⟩
      refine ⟨τ₂, hw₂.congr (fun j => ?_) fun i q => ?_, hon₁.trans hon₂ fun j => .inl⟩
      · simp [or_assoc, or_and_right, exists_or]
      · simp [or_assoc, or_and_right, exists_or]

theorem rename_step (hP : Planted f entry t p) {n : Nat} (hb : Connects p.func.Leads entry b)
    (ih : ∀ c, t.idom? c = some b → p.Walks entry t n c) : p.Walks entry t (n + 1) b := by
  intro seen filled τ versions s hw hbehind hnew hunfilled hl
  have ht := hP.tree_here
  obtain ⟨xs, hxs⟩ := hP.insts_ok hb
  obtain ⟨cs, hcs, hcsn, hcsm⟩ := ht.children hb
  have hbelow : ∀ {j}, j ∈ xs → p.func.Below entry b j :=
    fun hj => (ht.below_iff hb hxs).2 (.inl hj)
  have hphis : (s.phis.get? b).getD [] = p.phisAt b := by
    obtain ⟨g, fill, rfl, -⟩ := hw
    rfl
  have hhere : s.func.insts b = .ok xs := by
    obtain ⟨g, fill, rfl, -⟩ := hw
    exact hxs
  unfold State.rename
  rw [hphis]
  refine Run.Yields.bind (P := Latest p entry seen τ (p.heldBehind t b [])) ?_ fun versions₁ hl₁ =>
    ?_
  · obtain ⟨g, fill, rfl, h⟩ := hw
    exact (mergePhis_ok hP h hl).mono fun _ hl₁ => hl₁.congr fun slot _ => held_eq ht hb
  refine (Run.yields_lift ⟨xs, hhere, rfl⟩).bind ?_
  rintro _ rfl
  refine (renameInsts_ok hP hw hb hxs (hbehind hxs) (fun j hj => hnew j (hbelow hj)) hl₁).bind ?_
  rintro ⟨s₂, versions₂⟩ ⟨τ₂, hw₂, hon₂, hl₂⟩
  refine (fillSuccessors_ok hP hw₂ hxs (fun i => hunfilled i b hb.guards_self) hl₂).bind
    fun s₃ hw₃ => ?_
  refine (Run.yields_lift ⟨cs, hcs, rfl⟩).bind ?_
  rintro _ rfl
  refine (children_ok hP ih hxs hcsn (fun c => (hcsm c).1) hw₃ (hbehind hxs) hnew
    hunfilled hl₂).mono ?_
  rintro s₄ ⟨τ₄, hw₄, hon₄⟩
  refine ⟨τ₄, hw₄.congr (fun j => ?_) fun i q => ?_, hon₂.trans hon₄ fun j => .inl⟩
  · rw [ht.below_iff hb hxs, or_assoc]
    simp [hcsm]
  · rw [ht.guards_iff hb, or_assoc]
    have hhere : q = b ∧ p.Fed i b ↔ q = b ∧ p.Fed i q := and_congr_right fun he => by rw [he]
    simp only [hcsm, hhere, or_and_right, ← exists_and_right, and_assoc]

theorem rename_ok (hP : Planted f entry t p) {n k : Nat} (hk : t.order[k]? = some b)
    (hn : t.order.length ≤ k + n) : p.Walks entry t n b :=
  hP.tree_here.induct (P := p.Walks entry t) (rename_step hP) hk hn

theorem Planted.unwalked (hP : Planted f entry t p) :
    Renamed p entry t (fun _ => False) (fun _ _ => False) p.flow id fun _ => [] where
  exact := hP.coherent.flow
  rewired := (DataFlow.Rewired.refl p.flow).congr fun i inst hi => by
    unfold State.rewritten
    split
    · next hm => exact Option.some.inj (hi.symm.trans (hP.inst?_added hm))
    · exact (Inst.mapArgs_eq_self fun _ _ => rfl).symm
  moved hx := absurd rfl hx
  typed ho := DataFlow.ty_of_origin ho
  loads hl := hl.elim
  once _ := List.nodup_nil
  fed _ := by simp
  edge _ hv := absurd hv List.not_mem_nil
  past hx := absurd rfl hx
  plain hl := hl.elim

/-- From the root on, the walk replaces all loads that control comes to, and tells the phis of all
edges that control takes. -/
theorem rename_root (hP : Planted f entry t p) :
    (State.rename t (t.order.length + 1) [] p entry).Yields fun s' => ∃ g τ fill, s' =
      p.withFlow g ∧ Renamed p entry t (p.Met entry)
      (fun i q => Connects p.func.Leads entry q ∧ p.Fed i q) g τ fill := by
  have ht := hP.tree_here
  have hroot : ∀ {b}, Guards p.func.Leads entry entry b ↔ Connects p.func.Leads entry b :=
    ⟨fun hg => hg.1, fun hb => hb.guards_root⟩
  have hnone : t.idom? entry = none := by
    cases hd : t.idom? entry with
    | none => rfl
    | some d =>
      obtain ⟨hne, hg, -⟩ := (ht.idom?_iff entry d).1 hd
      exact absurd hg.root_eq hne
  refine (rename_ok hP (k := 0) ht.listing.head (by omega) ⟨p.flow, _, rfl,
    hP.unwalked⟩ ?_ ?_ ?_ ?_).mono ?_
  · rintro xs j hxs ⟨home, ys, hhome, hj, hg, hout⟩
    have he : home = entry := hg.root_eq
    subst he
    cases hxs.symm.trans hhome
    exact hout rfl hj
  · exact fun _ _ => id
  · exact fun _ _ _ => id
  · refine ⟨fun _ => ?_, fun _ hw => ?_⟩
    · rw [hnone]
      rfl
    · rw [hnone] at hw
      cases hw
  · rintro s' ⟨τ, hw, -⟩
    have hmet : ∀ j, False ∨ p.func.Below entry entry j ↔ p.Met entry j := by
      intro j
      rw [false_or]
      constructor
      · rintro ⟨home, xs, hxs, hj, hg⟩
        exact ⟨home, xs, hroot.1 hg, hxs, hj⟩
      · rintro ⟨home, xs, hb, hxs, hj⟩
        exact ⟨home, xs, hxs, hj, hroot.2 hb⟩
    have hw' : Walked p entry t (p.Met entry) (fun i q => Connects p.func.Leads entry q ∧
        p.Fed i q) τ s' :=
      hw.congr hmet fun i q => by rw [hroot, false_or]
    obtain ⟨g, fill, rfl, h⟩ := hw'
    exact ⟨g, τ, fill, rfl, h⟩

end Walk

end Promotion

end MiddleEnd
