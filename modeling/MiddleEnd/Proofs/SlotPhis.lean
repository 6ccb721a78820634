import Mathlib.Data.List.Basic
import MiddleEnd.Proofs.HeldValues
import MiddleEnd.Proofs.PhiPlacement
import MiddleEnd.Proofs.Restatement

/-!
# A function with phis for its slots

Phis have been added where paths with different stores meet, and they are still empty. Otherwise the
function is as it was: the same edges, the same instructions, the same values. For every block it is
known which phi merges a slot there, and where none does nothing on the border of which the block
lies has to do with the slot.
-/

namespace MiddleEnd

theorem Func.Coherent.one_place {f : Func} (h : f.Coherent) {b c : BlockId} {i : InstId}
    {pre post pre' post' : List InstId} (hb : f.insts b = .ok (pre ++ i :: post))
    (hc : f.insts c = .ok (pre' ++ i :: post')) :
    b = c ∧ pre = pre' ∧ post = post' := by
  obtain rfl := h.layout.one_block hb hc (List.mem_append_right _ List.mem_cons_self)
    (List.mem_append_right _ List.mem_cons_self)
  have hn := List.nodup_append.1 (h.layout.insts_nodup hc)
  have hpre : i ∉ pre' := fun hm => hn.2.2 i hm i List.mem_cons_self rfl
  have hpost : i ∉ post' := (List.nodup_cons.1 hn.2.1).1
  obtain ⟨hp, -, hq⟩ := (List.append_cons_inj_of_notMem hpre hpost).1
    (Except.ok.inj (hc.symm.trans hb))
  exact ⟨rfl, hp.symm, hq.symm⟩

namespace Promotion

open Func

def State.mergedAt (p : State) (a : ValueId) (b : BlockId) : Option ValueId :=
  ((p.phisAt b).find? (·.2.address = a)).bind fun phi => p.flow.result? phi.1

/-- A function without errors and its slots, all of them private, with empty phis for them in the
right places. -/
structure Planted (f : Func) (entry : BlockId) (t : DominatorTree) (p : State) : Prop where
  regular : f.Regular entry
  typed : f.Typed
  dominated : f.Dominated entry
  source : ∀ q, ¬ f.Leads q entry
  tree : t.Faithful f entry
  placed : ∃ M, State.Placed f p.slots p.accesses M p
  merges : ∀ {c slot}, slot ∈ (p.phisAt c).map (·.2) ↔ slot ∈ p.slots ∧ f.MergesAt slot.address c
  once : ∀ c, ((p.phisAt c).map (·.2)).Nodup
  hidden : ∀ {slot}, slot ∈ p.slots → f.Private slot.inst slot.address
  holds : ∀ {slot}, slot ∈ p.slots → f.flow.ty slot.address = .ok (.ptr slot.ty)
  loaded : ∀ {slot i}, slot ∈ p.slots → f.flow.inst? i = some (.unary .load slot.address) →
    slot.ty ≠ .void
  accesses : ∀ i, i ∈ p.accesses ↔ ∃ slot ∈ p.slots, ∃ inst, f.flow.inst? i = some inst ∧
    slot.address ∈ inst.args
  distinct : p.accesses.Nodup
  apart : (p.slots.map (·.inst)).Nodup

namespace Planted

variable {f : Func} {entry b c : BlockId} {t : DominatorTree} {p : State} {i j : InstId}
  {inst : Inst} {slot slot' : Slot} {xs : List InstId} {v y : ValueId}

theorem coherent (h : Planted f entry t p) : p.func.Coherent := by
  obtain ⟨M, hp⟩ := h.placed
  exact hp.coherent

theorem thinned (h : Planted f entry t p) : p.func.Thinned f p.added := by
  obtain ⟨M, hp⟩ := h.placed
  exact hp.thinned

theorem added_nodup (h : Planted f entry t p) : p.added.Nodup := by
  obtain ⟨M, hp⟩ := h.placed
  exact hp.apart

theorem origins (h : Planted f entry t p) {o : ValueDef} (ho : f.flow.origin? v = some o) :
    p.flow.origin? v = some o := by
  obtain ⟨M, hp⟩ := h.placed
  exact hp.origins ho

theorem heads (h : Planted f entry t p) (hxs : f.insts c = .ok xs) :
    p.func.insts c = .ok (((p.phisAt c).map (·.1)).reverse ++ xs) := by
  obtain ⟨M, hp⟩ := h.placed
  exact hp.heads hxs

theorem phi (h : Planted f entry t p) (hi : (i, slot) ∈ p.phisAt c) : f.flow.inst? i = none ∧
    p.flow.inst? i = some (.phi .phi [] []) ∧
    ∃ v, p.flow.result? i = some v ∧ p.flow.origin? v = some (.result slot.ty i) := by
  obtain ⟨M, hp⟩ := h.placed
  exact hp.phi hi

theorem mem_added (h : Planted f entry t p) : i ∈ p.added ↔ ∃ c slot, (i, slot) ∈ p.phisAt c := by
  obtain ⟨M, hp⟩ := h.placed
  exact hp.listed i

theorem inst?_old (h : Planted f entry t p) (hi : f.flow.inst? i = some inst) :
    p.flow.inst? i = some inst := by
  obtain ⟨M, hp⟩ := h.placed
  exact hp.inst?_old hi

theorem not_added (h : Planted f entry t p) (hi : f.flow.inst? i = some inst) : i ∉ p.added := by
  intro hm
  obtain ⟨c, slot, hp⟩ := h.mem_added.1 hm
  rw [(h.phi hp).1] at hi
  cases hi

theorem inst?_iff (h : Planted f entry t p) (hi : i ∉ p.added) :
    p.flow.inst? i = f.flow.inst? i := by
  have := h.thinned.inst? i
  rw [if_neg hi] at this
  exact this.symm

theorem inst?_added (h : Planted f entry t p) (hi : i ∈ p.added) :
    p.flow.inst? i = some (.phi .phi [] []) := by
  obtain ⟨c, slot, hp⟩ := h.mem_added.1 hi
  exact (h.phi hp).2.1

theorem result?_old (h : Planted f entry t p) (hi : i ∉ p.added) :
    p.flow.result? i = f.flow.result? i := by
  have := h.thinned.result? i
  rw [if_neg hi] at this
  exact this.symm

theorem isPhi_old (h : Planted f entry t p) (hi : i ∉ p.added) : p.flow.isPhi i = f.flow.isPhi i :=
  (h.thinned.isPhi hi).symm

theorem old_of_plain (h : Planted f entry t p) (hi : p.flow.inst? i = some inst)
    (hne : inst ≠ .phi .phi [] []) :
    i ∉ p.added ∧ f.flow.inst? i = some inst := by
  have hn : i ∉ p.added := by
    intro hm
    rw [h.inst?_added hm] at hi
    exact hne (Option.some.inj hi).symm
  rw [h.inst?_iff hn] at hi
  exact ⟨hn, hi⟩

theorem insts_of (h : Planted f entry t p) {ys : List InstId} (hys : p.func.insts c = .ok ys) :
    ∃ xs, f.insts c = .ok xs ∧ ys = ((p.phisAt c).map (·.1)).reverse ++ xs := by
  have hc : c ∈ f.blocks := by
    rw [show f.blocks = p.func.blocks from h.thinned.alike.blocks]
    exact Layout.mem_blocks_iff.2 ⟨ys, hys⟩
  obtain ⟨xs, hxs⟩ := Layout.mem_blocks_iff.1 hc
  refine ⟨xs, hxs, ?_⟩
  have hhead := h.heads hxs
  rw [hys] at hhead
  exact Except.ok.inj hhead

theorem mem_of_old (h : Planted f entry t p) (hi : i ∈ ((p.phisAt c).map (·.1)).reverse ++ xs)
    (hold : i ∉ p.added) :
    i ∈ xs := by
  refine (List.mem_append.1 hi).resolve_left fun hm => ?_
  obtain ⟨⟨j, slot⟩, hj, rfl⟩ := List.mem_map.1 (List.mem_reverse.1 hm)
  exact hold (h.mem_added.2 ⟨c, slot, hj⟩)

theorem starts (h : Planted f entry t p) : p.func.entry = .ok entry := by
  refine entry_eq_ok.2 ?_
  rw [show p.func.blocks = f.blocks from h.thinned.alike.blocks.symm]
  exact entry_eq_ok.1 h.regular.starts

theorem isPhi_added (h : Planted f entry t p) (hi : i ∈ p.added) : p.flow.isPhi i = true := by
  rw [DataFlow.isPhi_of_inst (h.inst?_added hi)]
  rfl

theorem ended (h : Planted f entry t p) : p.func.Ended := by
  intro c ys hys
  obtain ⟨xs, hxs, rfl⟩ := h.insts_of hys
  obtain ⟨front, j, rfl, hterm, hfront⟩ := h.regular.shape.ended hxs
  have hterm' : ∀ {k}, k ∉ p.added → p.func.flow.isTerminator k = f.flow.isTerminator k :=
    fun hk => (h.thinned.isTerminator hk).symm
  obtain ⟨jnst, hj⟩ := DataFlow.inst_of_isTerminator hterm
  refine ⟨((p.phisAt c).map (·.1)).reverse ++ front, j, (List.append_assoc ..).symm,
    (hterm' (h.not_added hj)).trans hterm, fun k hk => ?_⟩
  by_cases hadded : k ∈ p.added
  · exact not_terminator_of_phi (h.isPhi_added hadded)
  · rw [hterm' hadded]
    exact hfront k (h.mem_of_old hk hadded)

theorem last (h : Planted f entry t p) (hxs : f.insts c = .ok xs) :
    ∃ front j jnst, xs = front ++ [j] ∧ j ∉ p.added ∧ f.flow.inst? j = some jnst ∧
      jnst.op.isTerminator = true := by
  obtain ⟨front, j, rfl, hterm, -⟩ := h.regular.shape.ended hxs
  obtain ⟨jnst, hj⟩ := DataFlow.inst_of_isTerminator hterm
  exact ⟨front, j, jnst, rfl, h.not_added hj, hj,
    (DataFlow.isTerminator_of_inst hj).symm.trans hterm⟩

theorem leads_of_last (h : Planted f entry t p) {f' : Func} (hblocks : f'.blocks = f.blocks)
    (hlast : ∀ {c front j jnst}, f.insts c = .ok (front ++ [j]) → j ∉ p.added →
      f.flow.inst? j = some jnst →
      jnst.op.isTerminator = true → ∃ front' jnst', f'.insts c = .ok (front' ++ [j]) ∧
      f'.flow.inst? j = some jnst' ∧
        jnst'.op = jnst.op ∧ jnst'.blocks = jnst.blocks) : f'.Leads = f.Leads := by
  have hiff : ∀ {a b xs}, f.insts a = .ok xs → (f'.Leads a b ↔ f.Leads a b) := by
    intro a b xs hxs
    obtain ⟨front, j, jnst, rfl, hold, hj, hterm⟩ := h.last hxs
    obtain ⟨front', jnst', hxs', hj', hop, hblocks⟩ := hlast hxs hold hj hterm
    rw [leads_last_iff hxs' hj' (hop.symm ▸ hterm), leads_last_iff hxs hj hterm, hblocks]
  funext a b
  refine propext ⟨fun hl => ?_, fun hl => ?_⟩
  · obtain ⟨xs, hxs⟩ := Layout.mem_blocks_iff.1 (hblocks ▸ hl.mem_blocks : a ∈ f.blocks)
    exact (hiff hxs).1 hl
  · obtain ⟨xs, hxs⟩ := Layout.mem_blocks_iff.1 hl.mem_blocks
    exact (hiff hxs).2 hl

theorem insts_phi (h : Planted f entry t p) (hi : (i, slot) ∈ p.phisAt c) :
    ∃ ys, p.func.insts c = .ok ys ∧ i ∈ ys := by
  have hreach : f.Reachable c :=
    (h.merges.1 (List.mem_map_of_mem hi)).2.least (S := f.Reachable) (fun _ hd => hd.reachable)
      fun _ hd => hd.reachable
  have hc := h.regular.shape.closed.connects_mem h.regular.starts
    ((reachable_iff h.regular.starts).1 hreach)
  obtain ⟨xs, hxs⟩ := Layout.mem_blocks_iff.1 hc
  exact ⟨_, h.heads hxs, List.mem_append_left _ (List.mem_reverse.2 (List.mem_map.2 ⟨_, hi, rfl⟩))⟩

theorem leads_eq (h : Planted f entry t p) : p.func.Leads = f.Leads := by
  refine h.leads_of_last h.thinned.alike.blocks.symm fun {c front j jnst} hxs _ hj _ => ?_
  exact ⟨_, jnst, (h.heads hxs).trans (congrArg _ (List.append_assoc ..).symm),
    h.inst?_old hj, rfl, rfl⟩

theorem insts_ok (h : Planted f entry t p) (hb : Connects p.func.Leads entry b) :
    ∃ ys, p.func.insts b = .ok ys := by
  rw [h.leads_eq] at hb
  obtain ⟨xs, hxs⟩ :=
    Layout.mem_blocks_iff.1 (h.regular.shape.closed.connects_mem h.regular.starts hb)
  exact ⟨_, h.heads hxs⟩

theorem tree_here (h : Planted f entry t p) : t.Faithful p.func entry := h.tree.of_leads h.leads_eq

theorem avail (h : Planted f entry t p) {E : BlockId → BlockId → Prop} {rest : List InstId}
    {o : ValueDef} (hv : f.flow.origin? v = some o) (hav : f.Avail E entry b rest v) :
    p.func.Avail E entry b rest v := by
  intro ty i ho
  rw [show p.func.flow.origin? v = some o from h.origins hv] at ho
  cases ho
  obtain ⟨home, xs, hxs, hi, hg, hout⟩ := hav hv
  exact ⟨home, _, h.heads hxs, List.mem_append_right _ hi, hg, hout⟩

theorem split (h : Planted f entry t p) {pre post : List InstId}
    (hxs : p.func.insts b = .ok (pre ++ i :: post)) (hi : i ∉ p.added) :
    ∃ front, f.insts b = .ok (front ++ i :: post) := by
  obtain ⟨xs, hb, hsplit⟩ := h.insts_of hxs
  have hmem : i ∈ xs := h.mem_of_old (hsplit ▸ List.mem_append_right _ List.mem_cons_self) hi
  obtain ⟨front, back, rfl⟩ := List.append_of_mem hmem
  have hhead := h.heads hb
  rw [← List.append_assoc] at hhead
  obtain ⟨-, -, rfl⟩ := h.coherent.one_place hxs hhead
  exact ⟨front, hb⟩

theorem stranded (h : Planted f entry t p) (hv : f.Stranded entry v) : p.func.Stranded entry v := by
  obtain ⟨ty, j, home, xs, ho, hxs, hj, hn⟩ := hv
  exact ⟨ty, j, home, _, h.origins ho, h.heads hxs, List.mem_append_right _ hj, h.leads_eq ▸ hn⟩

theorem dominated_here (h : Planted f entry t p) : p.func.Dominated entry where
  body {b pre u post inst v} hb hxs hu hop hv := by
    rw [h.leads_eq] at hb ⊢
    have hne : inst ≠ .phi .phi [] [] := by
      rintro rfl
      cases hop
    obtain ⟨hold, hu⟩ := h.old_of_plain hu hne
    obtain ⟨front, hfront⟩ := h.split hxs hold
    obtain ⟨o, ho⟩ := h.regular.coherent.flow.operand hu hv
    exact (h.dominated.body hb hfront hu hop hv).imp (h.avail ho) h.stranded
  phis {b xs u inst v q} hb hxs hu hi hop he hq := by
    rw [h.leads_eq] at hb hq ⊢
    have hne : inst ≠ .phi .phi [] [] := by
      rintro rfl
      cases he
    obtain ⟨hold, hi⟩ := h.old_of_plain hi hne
    obtain ⟨ys, hys, rfl⟩ := h.insts_of hxs
    obtain ⟨o, ho⟩ := h.regular.coherent.flow.operand hi (Inst.arg_of_edge he)
    exact (h.dominated.phis hb hys (h.mem_of_old hu hold) hi hop he hq).imp (h.avail ho) h.stranded

theorem address_inj (h : Planted f entry t p) (hs : slot ∈ p.slots) (hs' : slot' ∈ p.slots)
    (he : slot.address = slot'.address) : slot = slot' := by
  refine List.inj_on_of_nodup_map h.apart hs hs' ?_
  obtain ⟨ty, ho, -⟩ := h.regular.coherent.flow.result_origin (h.hidden hs).result
  exact (h.regular.coherent.flow.definer_eq (he ▸ (h.hidden hs').result) ho)

theorem slotAt?_eq (h : Planted f entry t p) (hs : slot ∈ p.slots) :
    p.slotAt? slot.address = some slot := by
  unfold State.slotAt?
  cases hf : p.slots.find? (·.address = slot.address) with
  | none =>
    have := List.find?_eq_none.1 hf slot hs
    simp at this
  | some slot' =>
    have he := List.find?_some hf
    rw [h.address_inj (List.mem_of_find?_eq_some hf) hs (of_decide_eq_true he)]

theorem slotAt?_none (hv : ∀ slot ∈ p.slots, v ≠ slot.address) : p.slotAt? v = none := by
  refine List.find?_eq_none.2 fun slot hs => ?_
  simpa using Ne.symm (hv slot hs)

theorem load (h : Planted f entry t p) (hs : slot ∈ p.slots)
    (hi : p.flow.inst? i = some (.unary .load slot.address)) :
    ∃ r, p.flow.result? i = some r ∧ p.flow.ty r = .ok slot.ty := by
  obtain ⟨hn, hi⟩ := h.old_of_plain hi (fun he => by cases he)
  have hrule := h.typed hi
  obtain ⟨o, ho, hoty⟩ := DataFlow.ty_eq_ok.1 (h.holds hs)
  rw [Func.Rule, if_pos rfl, tyOf_eq ho, hoty] at hrule
  rw [h.result?_old hn]
  unfold Func.yieldTy at hrule
  cases hr : f.flow.result? i with
  | none =>
    rw [hr] at hrule
    exact absurd (Ty.ptr.inj hrule) (h.loaded hs hi)
  | some r =>
    rw [hr] at hrule
    obtain ⟨ty, hro, -⟩ := h.regular.coherent.flow.result_origin hr
    have hrty : slot.ty = ty := (Ty.ptr.inj hrule).trans (tyOf_eq hro)
    exact ⟨r, rfl, DataFlow.ty_eq_ok.2 ⟨_, h.origins hro, hrty.symm⟩⟩

theorem store (h : Planted f entry t p) (hs : slot ∈ p.slots)
    (hi : p.flow.inst? i = some (.binary .store slot.address y)) :
    p.flow.ty y = .ok slot.ty ∧ ∀ slot' ∈ p.slots, y ≠ slot'.address := by
  obtain ⟨-, hi⟩ := h.old_of_plain hi (fun he => by cases he)
  have hrule := h.typed hi
  obtain ⟨o, ho, hoty⟩ := DataFlow.ty_eq_ok.1 (h.holds hs)
  obtain ⟨oy, hoy⟩ := h.regular.coherent.flow.operand hi (v := y) (by simp [Inst.args])
  rw [Func.Rule, if_pos rfl, tyOf_eq ho, hoty, tyOf_eq hoy] at hrule
  refine ⟨DataFlow.ty_eq_ok.2 ⟨_, h.origins hoy, (Ty.ptr.inj hrule).symm⟩, ?_⟩
  rintro slot' hs' rfl
  rcases (h.hidden hs').uses hi (by simp [Inst.args]) with he | ⟨z, hz, he⟩
  · cases he
  · rw [Inst.binary.injEq] at he
    exact hz he.2.2.symm

theorem hidden_here (h : Planted f entry t p) (hs : slot ∈ p.slots) :
    p.func.Private slot.inst slot.address where
  slot := h.inst?_old (h.hidden hs).slot
  result := (h.result?_old (h.not_added (h.hidden hs).slot)).trans (h.hidden hs).result
  uses {j jnst} hj hmem := by
    have hne : jnst ≠ .phi .phi [] [] := by
      rintro rfl
      cases hmem
    exact (h.hidden hs).uses (h.old_of_plain hj hne).2 hmem

theorem phi_unique (h : Planted f entry t p) (hi : (i, slot) ∈ p.phisAt b)
    (hi' : (i, slot') ∈ p.phisAt c) :
    b = c ∧ slot = slot' := by
  have hplaced : ∀ {d s}, (i, s) ∈ p.phisAt d → f.MergesAt s.address d := fun hm =>
    (h.merges.1 (List.mem_map_of_mem hm)).2
  have hinsts : ∀ {d s}, (i, s) ∈ p.phisAt d → ∃ xs, f.insts d = .ok xs := by
    intro d s hm
    have hreach : Connects f.Leads entry d := by
      refine (reachable_iff h.regular.starts).1 ?_
      exact (hplaced hm).least (S := f.Reachable) (fun _ hc => hc.reachable)
        fun _ hc => hc.reachable
    exact Layout.mem_blocks_iff.1 (h.regular.shape.closed.connects_mem h.regular.starts hreach)
  have hmem : ∀ {d s xs}, (i, s) ∈ p.phisAt d → i ∈ ((p.phisAt d).map (·.1)).reverse ++
      xs := fun hm =>
    List.mem_append_left _ (List.mem_reverse.2 (List.mem_map.2 ⟨_, hm, rfl⟩))
  obtain ⟨xs, hxs⟩ := hinsts hi
  obtain ⟨ys, hys⟩ := hinsts hi'
  have hbc : b = c := h.coherent.layout.one_block (h.heads hxs) (h.heads hys) (hmem hi) (hmem hi')
  subst hbc
  refine ⟨rfl, ?_⟩
  have hn := (List.nodup_append.1 (h.coherent.layout.insts_nodup (h.heads hxs))).1
  exact congrArg Prod.snd (List.inj_on_of_nodup_map (List.nodup_reverse.1 hn) hi hi' rfl)

theorem mergedAt_iff (h : Planted f entry t p) :
    p.mergedAt slot.address b = some v ∧ slot ∈ p.slots ↔
    ∃ i, (i, slot) ∈ p.phisAt b ∧ p.flow.result? i = some v := by
  constructor
  · rintro ⟨hm, hs⟩
    obtain ⟨⟨i, slot'⟩, hfind, hr⟩ := Option.bind_eq_some_iff.1 hm
    have hmem := List.mem_of_find?_eq_some hfind
    have hs' := (h.merges.1 (List.mem_map_of_mem hmem)).1
    have hfound := List.find?_some hfind
    have he := h.address_inj hs' hs (by simpa using hfound)
    exact ⟨i, he ▸ hmem, hr⟩
  · rintro ⟨i, hmem, hr⟩
    have hs := (h.merges.1 (List.mem_map_of_mem hmem)).1
    refine ⟨?_, hs⟩
    unfold State.mergedAt
    cases hfind : (p.phisAt b).find? (·.2.address = slot.address) with
    | none =>
      have := List.find?_eq_none.1 hfind _ hmem
      simp at this
    | some phi =>
      obtain ⟨j, slot'⟩ := phi
      have hmem' := List.mem_of_find?_eq_some hfind
      have hs' := (h.merges.1 (List.mem_map_of_mem hmem')).1
      have hfound := List.find?_some hfind
      have he := h.address_inj hs' hs (by simpa using hfound)
      subst he
      have hsame := List.inj_on_of_nodup_map (h.once b) hmem' hmem rfl
      rw [Option.bind_some, congrArg Prod.fst hsame, hr]

theorem mergedAt_none (h : Planted f entry t p) (hs : slot ∈ p.slots) :
    p.mergedAt slot.address b = none ↔ ¬ f.MergesAt slot.address b := by
  constructor
  · intro hnone hm
    obtain ⟨⟨i, slot'⟩, hmem, rfl⟩ := List.mem_map.1 (h.merges.2 ⟨hs, hm⟩)
    obtain ⟨-, -, v, hv, -⟩ := h.phi hmem
    rw [(h.mergedAt_iff.2 ⟨i, hmem, hv⟩).1] at hnone
    cases hnone
  · intro hn
    cases hm : p.mergedAt slot.address b with
    | none => rfl
    | some v =>
      obtain ⟨i, hmem, -⟩ := h.mergedAt_iff.1 ⟨hm, hs⟩
      exact absurd (h.merges.1 (List.mem_map_of_mem hmem)).2 hn

theorem merged_root (h : Planted f entry t p) (hs : slot ∈ p.slots) :
    p.mergedAt slot.address entry = none := by
  refine (h.mergedAt_none hs).2 fun hm => ?_
  have hout : ∀ {d}, ¬ f.OnFrontier d entry := by
    rintro d ⟨⟨a, hl, -⟩, -⟩
    exact h.source a hl
  cases hm with
  | store _ hc => exact hout hc
  | again _ hc => exact hout hc

theorem quiet (h : Planted f entry t p) (hs : slot ∈ p.slots)
    (hm : p.mergedAt slot.address b = none) {q : BlockId} (hq : Borders f entry q b) :
    p.mergedAt slot.address q = none ∧
      ∀ xs held?, p.func.insts q = .ok xs → p.func.lastStored slot.address held? xs = held? := by
  have hn := (h.mergedAt_none hs).1 hm
  have hborder : f.OnFrontier q b := (State.onFrontier_iff h.regular.starts).2 hq
  refine ⟨(h.mergedAt_none hs).2 fun hmq => hn (.again hmq hborder), fun xs held? hxs => ?_⟩
  refine lastStored_eq_self fun j hj => ?_
  obtain ⟨jnst, hjnst⟩ := h.coherent.inst_of_mem hxs hj
  refine lastStored_other hjnst ?_
  rintro y rfl
  obtain ⟨hold, hjf⟩ := h.old_of_plain hjnst (fun he => by cases he)
  obtain ⟨ys, hys, rfl⟩ := h.insts_of hxs
  have hjy : j ∈ ys := h.mem_of_old hj hold
  obtain ⟨⟨a, -, hg⟩, -⟩ := hq
  exact hn (.store ⟨(reachable_iff h.regular.starts).2 hg.connects, ys, j, _, hys, hjy, hjf,
    rfl, rfl⟩ hborder)

end Planted

end Promotion

end MiddleEnd
