import MiddleEnd.Proofs.Coherence
import MiddleEnd.Proofs.Dominance
import MiddleEnd.Verify

/-!
# What verification accepts

A function without errors is one whose blocks are phis, then a body, then a terminator, whose phis
name their predecessors once each, whose types follow the rules, and in whose reachable blocks every
operand is defined before it is used. Values that come from unreachable blocks are the one
exception: nothing is asked of their uses.
-/

namespace MiddleEnd

namespace Func

theorem leads_iff {f : Func} {a b : BlockId} :
    f.Leads a b ↔ ∃ xs t inst, f.insts a = .ok xs ∧ xs.getLast? = some t ∧
    f.flow.inst? t = some inst ∧
      inst.op.isTerminator = true ∧ b ∈ inst.blocks := by
  constructor
  · rintro ⟨ss, hs, hb⟩
    unfold successors terminator? Layout.lastInst? at hs
    obtain ⟨o, ho, hs⟩ := bind_eq_ok.1 hs
    obtain ⟨l, hl, ho⟩ := bind_eq_ok.1 ho
    obtain ⟨xs, hxs, hl⟩ := bind_eq_ok.1 hl
    cases hl
    cases ho
    cases hf : xs.getLast?.filter f.flow.isTerminator with
    | none =>
      rw [hf] at hs
      cases hs
      cases hb
    | some t =>
      rw [hf] at hs
      obtain ⟨hlast, hterm⟩ := Option.filter_eq_some_iff.1 hf
      obtain ⟨inst, hi, hs⟩ := bind_eq_ok.1 hs
      cases hs
      rw [DataFlow.inst_eq_ok] at hi
      rw [DataFlow.isTerminator_of_inst hi] at hterm
      exact ⟨xs, t, inst, hxs, hlast, hi, hterm, List.mem_eraseDups.1 hb⟩
  · rintro ⟨xs, t, inst, hxs, hlast, hi, hterm, hb⟩
    have hfilter : xs.getLast?.filter f.flow.isTerminator = some t :=
      Option.filter_eq_some_iff.2 ⟨hlast, by rw [DataFlow.isTerminator_of_inst hi, hterm]⟩
    refine ⟨inst.blocks.eraseDups, ?_, List.mem_eraseDups.2 hb⟩
    unfold insts at hxs
    simp only [successors, terminator?, Layout.lastInst?, hxs, ok_bind, hfilter,
      DataFlow.inst_eq_ok.2 hi]

theorem leads_last_iff {f : Func} {a b : BlockId} {front : List InstId} {t : InstId} {inst : Inst}
    (hxs : f.insts a = .ok (front ++ [t])) (ht : f.flow.inst? t = some inst)
    (hterm : inst.op.isTerminator = true) :
    f.Leads a b ↔ b ∈ inst.blocks := by
  rw [leads_iff]
  constructor
  · rintro ⟨xs, u, unst, hxs', hlast, hu, -, hb⟩
    rw [hxs] at hxs'
    cases hxs'
    rw [List.getLast?_concat] at hlast
    cases hlast
    rw [ht] at hu
    cases hu
    exact hb
  · exact fun hb => ⟨_, t, inst, hxs, List.getLast?_concat, ht, hterm, hb⟩

theorem terminator?_last {f : Func} {b : BlockId} {front : List InstId} {t : InstId}
    (hxs : f.insts b = .ok (front ++ [t])) (ht : f.flow.isTerminator t = true) :
    f.terminator? b = .ok (some t) := by
  have hlast : f.layout.lastInst? b = .ok (some t) := by
    unfold Layout.lastInst?
    rw [show f.layout.insts b = .ok (front ++ [t]) from hxs, ok_bind, List.getLast?_concat]
  unfold terminator?
  rw [hlast, ok_bind, Option.filter_some, if_pos ht]

theorem mem_of_terminator? {f : Func} {b : BlockId} {t : InstId}
    (h : f.terminator? b = .ok (some t)) :
    ∃ xs, f.insts b = .ok xs ∧ t ∈ xs := by
  obtain ⟨last?, hlast, h⟩ := bind_eq_ok.1 h
  obtain ⟨xs, hxs, hlast⟩ := bind_eq_ok.1 hlast
  cases hlast
  exact ⟨xs, hxs, List.mem_of_getLast? (Option.filter_eq_some_iff.1 (Except.ok.inj h)).1⟩

theorem successors_last {f : Func} {b : BlockId} {front : List InstId} {t : InstId} {inst : Inst}
    (hxs : f.insts b = .ok (front ++ [t])) (ht : f.flow.inst? t = some inst)
    (hterm : inst.op.isTerminator = true) :
    f.successors b = .ok inst.blocks.eraseDups := by
  unfold successors
  rw [terminator?_last hxs ((DataFlow.isTerminator_of_inst ht).trans hterm), ok_bind]
  simp only [DataFlow.inst_eq_ok.2 ht, ok_bind]

def Ended (f : Func) : Prop :=
  ∀ {b xs}, f.insts b = .ok xs → ∃ front t, xs = front ++ [t] ∧ f.flow.isTerminator t = true ∧
    ∀ i ∈ front, f.flow.isTerminator i = false

/-- Nothing stands behind a terminator. -/
def EndsLast (f : Func) : Prop :=
  ∀ {c xs t}, f.insts c = .ok xs → t ∈ xs → f.flow.isTerminator t = true → xs.getLast? = some t

theorem Ended.endsLast {f : Func} (h : f.Ended) : f.EndsLast := by
  intro c xs t hxs ht hterm
  obtain ⟨front, last, rfl, -, hfront⟩ := h hxs
  rcases List.mem_append.1 ht with ht | ht
  · rw [hfront t ht] at hterm
    cases hterm
  · rw [List.mem_singleton.1 ht, List.getLast?_concat]

theorem endsLast_of_all {f : Func} (h : f.layout.rows.all (fun r => r.insts.all fun t =>
    !f.flow.isTerminator t || decide (r.insts.getLast? = some t)) = true) : f.EndsLast := by
  intro c xs t hxs ht hterm
  obtain ⟨r, hr, rfl⟩ := Layout.insts_eq_ok.1 hxs
  have hlast := List.all_eq_true.1 (List.all_eq_true.1 h r (Layout.row?_mem hr)) t ht
  rw [hterm] at hlast
  exact of_decide_eq_true hlast

theorem mem_predecessors_of {f : Func} (hl : f.layout.Proper)
    (hu : ∀ b i, i ∈ f.flow.usersOfBlock b ↔ ∃ inst, f.flow.inst? i = some inst ∧ b ∈ inst.blocks)
    (he : f.EndsLast) {p b : BlockId} : p ∈ f.predecessors b ↔ f.Leads p b := by
  unfold predecessors
  rw [KeySet.mem_toList_ofList, List.mem_filterMap, leads_iff]
  constructor
  · rintro ⟨i, hi, hp⟩
    obtain ⟨hi, hterm⟩ := List.mem_filter.1 hi
    obtain ⟨inst, hinst, hb⟩ := (hu b i).1 hi
    obtain ⟨xs, hxs, hmem⟩ := hl.blockOf?_eq_some.1 hp
    refine ⟨xs, i, inst, hxs, he hxs hmem hterm, hinst, ?_, hb⟩
    rw [← DataFlow.isTerminator_of_inst hinst]
    exact hterm
  · rintro ⟨xs, t, inst, hxs, hlast, hi, hterm, hb⟩
    refine ⟨t, List.mem_filter.2 ⟨(hu b t).2 ⟨inst, hi, hb⟩, ?_⟩, ?_⟩
    · rw [DataFlow.isTerminator_of_inst hi]
      exact hterm
    · exact hl.blockOf?_eq_some.2 ⟨xs, hxs, List.mem_of_getLast? hlast⟩

theorem mem_predecessors {f : Func} (hc : f.Coherent) (he : f.Ended) {p b : BlockId} :
    p ∈ f.predecessors b ↔ f.Leads p b :=
  mem_predecessors_of hc.layout hc.flow.blockUsers_iff he.endsLast

/-- A block is some phis, which name the predecessors once each, then a body, then a terminator. -/
structure Shaped (f : Func) (b : BlockId) (phis body : List InstId) (last : InstId) : Prop where
  isPhi : ∀ i ∈ phis, f.flow.isPhi i = true
  plain : ∀ i ∈ body, f.flow.isPhi i = false ∧ f.flow.isTerminator i = false
  isTerminator : f.flow.isTerminator last = true
  edges : ∀ {i inst}, i ∈ phis → f.flow.inst? i = some inst →
    inst.blocks.Nodup ∧ ∀ p, p ∈ inst.blocks ↔ f.Leads p b

theorem not_phi_of_terminator {g : DataFlow} {i : InstId} (h : g.isTerminator i = true) :
    g.isPhi i = false := by
  unfold DataFlow.isTerminator DataFlow.op? at h
  unfold DataFlow.isPhi DataFlow.op?
  cases hi : g.inst? i with
  | none => rfl
  | some inst =>
    rw [hi] at h
    simp only [Option.map_some, Option.any_some] at h ⊢
    revert h
    cases inst.op <;> decide

theorem not_terminator_of_phi {g : DataFlow} {i : InstId} (h : g.isPhi i = true) :
    g.isTerminator i = false := by
  cases ht : g.isTerminator i with
  | false => rfl
  | true =>
    rw [not_phi_of_terminator ht] at h
    cases h

section Shaped

variable {f : Func} {b : BlockId} {phis body : List InstId} {last : InstId}

theorem Shaped.not_phi (h : f.Shaped b phis body last) :
    ∀ i ∈ body ++ [last], f.flow.isPhi i = false := by
  intro i hi
  rcases List.mem_append.1 hi with hi | hi
  · exact (h.plain i hi).1
  · rw [List.mem_singleton.1 hi]
    exact not_phi_of_terminator h.isTerminator

theorem Shaped.dropWhile_eq (h : f.Shaped b phis body last) :
    (phis ++ (body ++ [last])).dropWhile f.flow.isPhi = body ++ [last] := by
  rw [List.dropWhile_append_of_pos h.isPhi]
  cases body with
  | nil => simp [h.not_phi last (by simp)]
  | cons x body => simp [h.not_phi x (by simp)]

theorem Shaped.takeWhile_eq (h : f.Shaped b phis body last) :
    (phis ++ (body ++ [last])).takeWhile f.flow.isPhi = phis := by
  have hsplit := List.takeWhile_append_dropWhile (p := f.flow.isPhi) (l := phis ++ (body ++ [last]))
  rw [h.dropWhile_eq] at hsplit
  exact List.append_cancel_right hsplit

end Shaped

end Func

namespace Verify

theorem instErrorIf_eq_nil {f : Func} {i : InstId} {bad : Bool} {message : String} :
    instErrorIf f i bad message = .ok [] ↔ bad = false := by
  unfold instErrorIf
  cases bad with
  | false => simp
  | true =>
    simp only [if_true]
    cases instError f i message with
    | error e => simp
    | ok d => simp

theorem append_eq_nil {α : Type} {x y : Checked (List α)} :
    (do let a ← x; let b ← y; .ok (a ++ b) : Checked (List α)) = .ok [] ↔ x = .ok [] ∧
    y = .ok [] := by
  constructor
  · intro h
    obtain ⟨a, ha, h⟩ := bind_eq_ok.1 h
    obtain ⟨b, hb, h⟩ := bind_eq_ok.1 h
    obtain ⟨rfl, rfl⟩ := List.append_eq_nil_iff.1 (Except.ok.inj h)
    exact ⟨ha, hb⟩
  · rintro ⟨rfl, rfl⟩
    rfl

theorem flatten_eq_nil {α β : Type} {f : α → Checked (List β)} {xs : List α} :
    (do let ys ← xs.mapM f; .ok ys.flatten : Checked (List β)) = .ok [] ↔
    ∀ x ∈ xs, f x = .ok [] := by
  rw [← mapM_flatten_nil]
  constructor
  · intro h
    obtain ⟨ys, hys, h⟩ := bind_eq_ok.1 h
    exact ⟨ys, hys, Except.ok.inj h⟩
  · rintro ⟨ys, hys, h⟩
    rw [hys, ok_bind, h]

theorem flattens_eq_nil {α β γ : Type} {f : α → Checked (List γ)}
    {g : β → Checked (List γ)} {xs : List α} {ys : List β} :
    (do let as ← xs.mapM f; let bs ← ys.mapM g; .ok (as.flatten ++ bs.flatten) : Checked (List γ)) =
      .ok [] ↔
      (∀ x ∈ xs, f x = .ok []) ∧ ∀ y ∈ ys, g y = .ok [] := by
  rw [← mapM_flatten_nil, ← mapM_flatten_nil]
  constructor
  · intro h
    obtain ⟨as, has, h⟩ := bind_eq_ok.1 h
    obtain ⟨bs, hbs, h⟩ := bind_eq_ok.1 h
    obtain ⟨ha, hb⟩ := List.append_eq_nil_iff.1 (Except.ok.inj h)
    exact ⟨⟨as, has, ha⟩, bs, hbs, hb⟩
  · rintro ⟨⟨as, has, ha⟩, bs, hbs, hb⟩
    rw [has, ok_bind, hbs, ok_bind, ha, hb]
    rfl

theorem phiEdges_eq_nil {f : Func} {b : BlockId} {i : InstId} {inst : Inst} :
    phiEdges f b i inst = .ok [] ↔ inst.blocks.Nodup ∧ ∀ p, p ∈ inst.blocks ↔
    p ∈ f.predecessors b := by
  unfold phiEdges
  simp only
  rw [append_eq_nil, instErrorIf_eq_nil, instErrorIf_eq_nil]
  simp only [decide_eq_false_iff_not, Decidable.not_not, ne_eq]
  rw [KeySet.length_ofList_eq_iff]
  refine and_congr_right fun _ => ?_
  constructor
  · intro h p
    rw [← h, KeySet.mem_toList_ofList]
  · intro h
    unfold Func.predecessors at h ⊢
    refine KeySet.toList_ext fun p => ?_
    rw [KeySet.mem_ofList, h p, KeySet.mem_toList_ofList, KeySet.mem_ofList]

theorem instShape_eq_nil {f : Func} {b : BlockId} {last i : InstId} {afterPhis : Bool} {inst : Inst}
    (hi : f.flow.inst? i = some inst) :
    instShape f b last afterPhis i = .ok [] ↔ (inst.op.isTerminator = true → i = last) ∧
      (inst.op.isPhi = true → afterPhis = false ∧ phiEdges f b i inst = .ok []) := by
  have hearly : (inst.op.isTerminator && decide (i ≠ last)) = false ↔
      (inst.op.isTerminator = true → i = last) := by
    cases inst.op.isTerminator <;> simp
  unfold instShape
  rw [DataFlow.inst_eq_ok.2 hi, ok_bind]
  cases hphi : inst.op.isPhi with
  | false =>
    simp only [Bool.not_false, if_true, Bool.false_eq_true, false_implies, and_true]
    rw [← hearly]
    constructor
    · intro h
      obtain ⟨e, he, h⟩ := bind_eq_ok.1 h
      cases h
      exact instErrorIf_eq_nil.1 he
    · intro h
      rw [instErrorIf_eq_nil.2 h]
      rfl
  | true =>
    simp only [Bool.not_true, Bool.false_eq_true, if_false, true_implies]
    rw [← hearly]
    constructor
    · intro h
      obtain ⟨e, he, h⟩ := bind_eq_ok.1 h
      obtain ⟨l, hl, h⟩ := bind_eq_ok.1 h
      obtain ⟨ps, hps, h⟩ := bind_eq_ok.1 h
      obtain ⟨hel, rfl⟩ := List.append_eq_nil_iff.1 (Except.ok.inj h)
      obtain ⟨rfl, rfl⟩ := List.append_eq_nil_iff.1 hel
      exact ⟨instErrorIf_eq_nil.1 he, instErrorIf_eq_nil.1 hl, hps⟩
    · rintro ⟨he, hl, hps⟩
      rw [instErrorIf_eq_nil.2 he, ok_bind, instErrorIf_eq_nil.2 hl, ok_bind, hps]
      rfl

def PhisFirst (f : Func) (xs : List InstId) : Prop :=
  ∃ phis rest, xs = phis ++ rest ∧ (∀ i ∈ phis, f.flow.isPhi i = true) ∧
    ∀ i ∈ rest, f.flow.isPhi i = false

theorem instShapes_eq_nil {f : Func} {b : BlockId} {last : InstId} :
    ∀ {xs : List InstId} {afterPhis : Bool}, (∀ i ∈ xs, ∃ inst, f.flow.inst? i = some inst) →
      (instShapes f b last afterPhis xs = .ok [] ↔
        (∀ i ∈ xs, f.flow.isTerminator i = true → i = last) ∧
        (∀ i ∈ xs, ∀ inst, f.flow.inst? i = some inst → inst.op.isPhi = true →
          phiEdges f b i inst = .ok []) ∧
        if afterPhis then ∀ i ∈ xs, f.flow.isPhi i = false else PhisFirst f xs) := by
  intro xs
  induction xs with
  | nil =>
    intro afterPhis _
    refine ⟨fun _ => ⟨by simp, by simp, ?_⟩, fun _ => rfl⟩
    split
    · simp
    · exact ⟨[], [], rfl, by simp, by simp⟩
  | cons i xs ih =>
    intro afterPhis hin
    obtain ⟨inst, hi⟩ := hin i List.mem_cons_self
    have hrest : ∀ j ∈ xs, ∃ jnst, f.flow.inst? j = some jnst :=
      fun j hj => hin j (List.mem_cons_of_mem _ hj)
    unfold instShapes
    rw [append_eq_nil, instShape_eq_nil hi, ih hrest, DataFlow.isPhi_of_inst hi]
    simp only [List.forall_mem_cons, DataFlow.isTerminator_of_inst hi, DataFlow.isPhi_of_inst hi]
    have hself : (∀ jnst, f.flow.inst? i = some jnst → jnst.op.isPhi = true →
        phiEdges f b i jnst = .ok []) ↔
        (inst.op.isPhi = true → phiEdges f b i inst = .ok []) := by
      constructor
      · exact fun h => h inst hi
      · intro h jnst hj
        rw [hi] at hj
        cases hj
        exact h
    rw [hself]
    have hfirst : PhisFirst f (i :: xs) ↔
        (if inst.op.isPhi then PhisFirst f xs else ∀ j ∈ xs, f.flow.isPhi j = false) := by
      constructor
      · rintro ⟨phis, rest, he, hp, hr⟩
        cases phis with
        | nil =>
          rw [List.nil_append] at he
          subst he
          have hn := hr i List.mem_cons_self
          rw [DataFlow.isPhi_of_inst hi] at hn
          rw [hn]
          exact fun j hj => hr j (List.mem_cons_of_mem _ hj)
        | cons k phis =>
          obtain ⟨rfl, rfl⟩ := List.cons.inj he
          have hn := hp i List.mem_cons_self
          rw [DataFlow.isPhi_of_inst hi] at hn
          rw [hn]
          exact ⟨phis, rest, rfl, fun j hj => hp j (List.mem_cons_of_mem _ hj), hr⟩
      · intro h
        cases hphi : inst.op.isPhi with
        | true =>
          rw [hphi] at h
          obtain ⟨phis, rest, rfl, hp, hr⟩ := h
          refine ⟨i :: phis, rest, rfl, fun j hj => ?_, hr⟩
          rcases List.mem_cons.1 hj with rfl | hj
          · rw [DataFlow.isPhi_of_inst hi, hphi]
          · exact hp j hj
        | false =>
          rw [hphi] at h
          refine ⟨[], i :: xs, rfl, by simp, fun j hj => ?_⟩
          rcases List.mem_cons.1 hj with rfl | hj
          · rw [DataFlow.isPhi_of_inst hi, hphi]
          · exact h j hj
    cases afterPhis with
    | true =>
      cases inst.op.isPhi <;> simp
      grind
    | false =>
      simp only [Bool.false_or, Bool.false_eq_true, if_false, hfirst]
      cases inst.op.isPhi <;> simp
      · grind
      · grind

theorem blockShape_eq_nil {f : Func} {row : Row} :
    blockShape f row = .ok [] ↔ ∃ last, row.insts.getLast? = some last ∧
    f.flow.isTerminator last = true ∧
      instShapes f row.block last false row.insts = .ok [] := by
  unfold blockShape
  cases hl : row.insts.getLast? with
  | none => simp
  | some last =>
    simp only [Option.some.injEq, exists_eq_left']
    cases ht : f.flow.isTerminator last with
    | true =>
      simp only [if_true, true_and]
      constructor
      · intro h
        obtain ⟨e, he, h⟩ := bind_eq_ok.1 h
        rw [he, Except.ok.inj h]
      · intro h
        rw [h]
        rfl
    | false =>
      simp only [Bool.false_eq_true, if_false, false_and, iff_false]
      intro h
      obtain ⟨e, he, h⟩ := bind_eq_ok.1 h
      obtain ⟨m, hm, h⟩ := bind_eq_ok.1 h
      simp at h

theorem operandsDefined_sound {f : Func} {i : InstId} {inst : Inst}
    (hi : f.flow.inst? i = some inst) (h : operandsDefined f i = .ok []) :
    (∀ v ∈ inst.args, ∃ o, f.flow.origin? v = some o) ∧ ∀ b ∈ inst.blocks, b ∈ f.blocks := by
  unfold operandsDefined at h
  rw [DataFlow.inst_eq_ok.2 hi, ok_bind, flattens_eq_nil] at h
  refine ⟨fun v hv => ?_, fun b hb => ?_⟩
  · have hv := h.1 v hv
    rw [instErrorIf_eq_nil, Bool.not_eq_false'] at hv
    cases ho : f.flow.origin? v with
    | none =>
      rw [ho] at hv
      cases hv
    | some o => exact ⟨o, rfl⟩
  · have hb := h.2 b hb
    rw [instErrorIf_eq_nil, Bool.not_eq_false'] at hb
    exact Layout.hasBlock_iff.1 hb

theorem operandsDefined_eq_nil {f : Func} (hc : f.Coherent) {i : InstId} {inst : Inst}
    (hi : f.flow.inst? i = some inst) :
    operandsDefined f i = .ok [] ↔ ∀ b ∈ inst.blocks, b ∈ f.blocks := by
  refine ⟨fun h => (operandsDefined_sound hi h).2, fun h => ?_⟩
  unfold operandsDefined
  rw [DataFlow.inst_eq_ok.2 hi, ok_bind, flattens_eq_nil]
  refine ⟨fun v hv => ?_, fun b hb => ?_⟩
  · refine instErrorIf_eq_nil.2 ?_
    rw [Bool.not_eq_false']
    obtain ⟨o, ho⟩ := hc.flow.operand hi hv
    rw [ho]
    cases o with
    | result ty j =>
      obtain ⟨jnst, hj⟩ := DataFlow.hasInst_of_result (hc.flow.origin_result ho)
      obtain ⟨b, xs, hb, hx⟩ := hc.home hj
      simp only [hc.blockOf?_eq_some.2 ⟨xs, hb, hx⟩, Option.isSome_some]
    | _ => rfl
  · rw [instErrorIf_eq_nil, Bool.not_eq_false']
    exact Layout.hasBlock_iff.2 (h b hb)

end Verify

namespace Func

/-- Every block has the right shape, and every block referred to is placed. -/
structure WellShaped (f : Func) : Prop where
  shaped : ∀ {b xs}, f.insts b = .ok xs → ∃ phis body last, xs = phis ++ (body ++ [last]) ∧
    f.Shaped b phis body last
  targets : ∀ {i inst}, f.flow.inst? i = some inst → ∀ b ∈ inst.blocks, b ∈ f.blocks

theorem WellShaped.ended {f : Func} (h : f.WellShaped) : f.Ended := by
  intro b xs hb
  obtain ⟨phis, body, last, rfl, hs⟩ := h.shaped hb
  refine ⟨phis ++ body, last, by rw [List.append_assoc], hs.isTerminator, fun i hi => ?_⟩
  rcases List.mem_append.1 hi with hi | hi
  · exact not_terminator_of_phi (hs.isPhi i hi)
  · exact (hs.plain i hi).2

theorem WellShaped.mem_phis {f : Func} (h : f.WellShaped) {b : BlockId}
    {xs : List InstId} {i : InstId} (hb : f.insts b = .ok xs) (hi : i ∈ xs)
    (hphi : f.flow.isPhi i = true) : i ∈ xs.takeWhile f.flow.isPhi := by
  obtain ⟨phis, body, last, rfl, hs⟩ := h.shaped hb
  rw [hs.takeWhile_eq]
  rcases List.mem_append.1 hi with hi | hi
  · exact hi
  · rw [hs.not_phi i hi] at hphi
    cases hphi

theorem WellShaped.phi_edges {f : Func} (h : f.WellShaped) {b : BlockId} {xs : List InstId}
    {phi : InstId} {inst : Inst} (hb : f.insts b = .ok xs) (hx : phi ∈ xs)
    (hphi : f.flow.isPhi phi = true) (hi : f.flow.inst? phi = some inst) :
    inst.blocks.Nodup ∧ ∀ p, p ∈ inst.blocks ↔ f.Leads p b := by
  have hphis := h.mem_phis hb hx hphi
  obtain ⟨phis, body, last, rfl, hs⟩ := h.shaped hb
  rw [hs.takeWhile_eq] at hphis
  exact hs.edges hphis hi

theorem WellShaped.closed {f : Func} (h : f.WellShaped) : f.Closed := by
  intro a _ b hl
  obtain ⟨_, _, _, -, -, hi, -, hb⟩ := leads_iff.1 hl
  exact h.targets hi b hb

theorem WellShaped.leads {f : Func} (h : f.WellShaped) {b t : BlockId} {xs : List InstId}
    {i : InstId} {inst : Inst} (hxs : f.insts b = .ok xs) (hi : i ∈ xs)
    (hinst : f.flow.inst? i = some inst) (hterm : inst.op.isTerminator = true)
    (ht : t ∈ inst.blocks) : f.Leads b t := by
  obtain ⟨front, last, rfl, -, hfront⟩ := h.ended hxs
  have hterm' : f.flow.isTerminator i = true := (DataFlow.isTerminator_of_inst hinst).trans hterm
  rcases List.mem_append.1 hi with hi | hi
  · exact absurd hterm' (by simp [hfront i hi])
  · obtain rfl := List.mem_singleton.1 hi
    exact leads_iff.2 ⟨_, i, inst, hxs, by simp, hinst, hterm, ht⟩

end Func

namespace Verify

theorem phi_of_form {inst : Inst} (h : formFits inst = true) (hop : inst.op.isPhi = true) :
    ∃ args preds, inst = .phi .phi args preds := by
  have hop : inst.op = .phi := by
    rw [Opcode.isPhi, beq_iff_eq] at hop
    exact hop
  cases inst with
  | phi op args preds =>
    cases hop
    exact ⟨args, preds, rfl⟩
  | _ =>
    cases hop
    cases h

theorem jump_of_form {inst : Inst} (h : formFits inst = true) (hop : inst.op = .br) :
    ∃ t, inst = .jump .br t := by
  cases inst <;> cases hop <;> first
    | exact ⟨_, rfl⟩
    | exact (Bool.false_ne_true h).elim

theorem branch_of_form {inst : Inst} (h : formFits inst = true) (hop : inst.op = .brCond) :
    ∃ c t e, inst = .branch .brCond c t e := by
  cases inst <;> cases hop <;> first
    | exact ⟨_, _, _, rfl⟩
    | exact (Bool.false_ne_true h).elim

theorem return_of_form {inst : Inst} (h : formFits inst = true) (hop : inst.op = .retValue) :
    ∃ x, inst = .unary .retValue x := by
  cases inst <;> cases hop <;> first
    | exact ⟨_, rfl⟩
    | exact (Bool.false_ne_true h).elim

theorem call_of_form {inst : Inst} (h : formFits inst = true) (hop : inst.op = .call) :
    ∃ target vs, inst = .call .call target vs := by
  cases inst <;> cases hop <;> first
    | exact ⟨_, _, rfl⟩
    | exact (Bool.false_ne_true h).elim

theorem alloca_of_form {inst : Inst} (h : formFits inst = true) (hop : inst.op = .alloca) :
    inst = .nullary .alloca := by
  cases inst <;> cases hop <;> first
    | rfl
    | exact (Bool.false_ne_true h).elim

theorem shape_split {f : Func} :
    shape f = .ok [] ↔ (∀ row ∈ f.layout.rows, blockShape f row = .ok []) ∧
    ∀ i ∈ f.allInsts, operandsDefined f i = .ok [] := flattens_eq_nil

theorem ended_of_shape {f : Func} (ha : f.Arranged)
    (h : ∀ row ∈ f.layout.rows, blockShape f row = .ok []) :
    f.Ended ∧ ∀ {b xs}, f.insts b = .ok xs → PhisFirst f xs ∧
      ∀ i ∈ xs, ∀ inst, f.flow.inst? i = some inst → inst.op.isPhi = true →
        phiEdges f b i inst = .ok [] := by
  have hblock : ∀ {b xs}, f.insts b = .ok xs → ∃ last, xs.getLast? = some last ∧
      f.flow.isTerminator last = true ∧ (∀ i ∈ xs, f.flow.isTerminator i = true → i = last) ∧
      (∀ i ∈ xs, ∀ inst, f.flow.inst? i = some inst → inst.op.isPhi = true →
      phiEdges f b i inst = .ok []) ∧
      PhisFirst f xs := by
    intro b xs hb
    have hinst : ∀ i ∈ xs, ∃ inst, f.flow.inst? i = some inst := fun i hi =>
      (ha.placed i).1 ((Layout.mem_allInsts_iff ha.layout.blocks_nodup).2 ⟨b, xs, hb, hi⟩)
    obtain ⟨row, hr, rfl⟩ := Layout.insts_eq_ok.1 hb
    obtain ⟨last, hl, ht, hs⟩ := blockShape_eq_nil.1 (h row (Layout.row?_mem hr))
    obtain ⟨h₁, h₂, h₃⟩ := (instShapes_eq_nil hinst).1 hs
    rw [Layout.row?_block hr] at h₂
    exact ⟨last, hl, ht, h₁, h₂, h₃⟩
  refine ⟨fun {b xs} hb => ?_, fun {b xs} hb => ?_⟩
  · obtain ⟨last, hl, ht, honly, -⟩ := hblock hb
    obtain ⟨front, rfl⟩ := List.getLast?_eq_some_iff.1 hl
    refine ⟨front, last, rfl, ht, fun i hi => ?_⟩
    cases hit : f.flow.isTerminator i with
    | false => rfl
    | true =>
      obtain rfl := honly i (List.mem_append_left _ hi) hit
      exact absurd rfl ((List.nodup_append.1 (ha.layout.insts_nodup hb)).2.2 i hi i
        List.mem_cons_self)
  · obtain ⟨-, -, -, -, hedges, hphis⟩ := hblock hb
    exact ⟨hphis, hedges⟩

theorem shape_eq_nil {f : Func} (hc : f.Coherent) : shape f = .ok [] ↔ f.WellShaped := by
  have hrows : ∀ row ∈ f.layout.rows, f.insts row.block = .ok row.insts := fun row hr =>
    Layout.insts_of_mem hc.layout.blocks_nodup hr
  have hinst : ∀ row ∈ f.layout.rows, ∀ i ∈ row.insts, ∃ inst, f.flow.inst? i =
      some inst := fun row hr i hi =>
    hc.inst_of_mem (hrows row hr) hi
  rw [shape_split]
  constructor
  · rintro ⟨hblocks, hoperands⟩
    obtain ⟨hended, hblock⟩ := ended_of_shape hc.arranged hblocks
    refine ⟨fun {b xs} hb => ?_, fun {i inst} hi => ?_⟩
    · obtain ⟨⟨phis, rest, hxs, hp, hr⟩, hedges⟩ := hblock hb
      obtain ⟨front, last, hfront, ht, hnone⟩ := hended hb
      have hlast : rest.getLast? = some last := by
        have hl : xs.getLast? = some last := by rw [hfront, List.getLast?_concat]
        cases hrest : rest.getLast? with
        | none =>
          rw [List.getLast?_eq_none_iff] at hrest
          subst hrest
          rw [hxs, List.append_nil] at hl
          have := hp last (List.mem_of_getLast? hl)
          rw [Func.not_phi_of_terminator ht] at this
          cases this
        | some l =>
          rw [hxs, List.getLast?_append, hrest] at hl
          exact hl
      obtain ⟨body, rfl⟩ := List.getLast?_eq_some_iff.1 hlast
      have hfront' : front = phis ++ body := by
        rw [hxs, ← List.append_assoc] at hfront
        exact (List.append_inj' hfront rfl).1.symm
      refine ⟨phis, body, last, hxs, hp, fun i hi => ⟨hr i (List.mem_append_left _ hi), ?_⟩, ht, ?_⟩
      · exact hnone i (by rw [hfront']; exact List.mem_append_right _ hi)
      · intro i inst hi hin
        have hphi := hp i hi
        rw [DataFlow.isPhi_of_inst hin] at hphi
        have hmem : i ∈ xs := by
          rw [hxs]
          exact List.mem_append_left _ hi
        obtain ⟨hn, hm⟩ := phiEdges_eq_nil.1 (hedges i hmem inst hin hphi)
        exact ⟨hn, fun p => (hm p).trans (Func.mem_predecessors hc hended)⟩
    · exact (operandsDefined_eq_nil hc hi).1 (hoperands i ((hc.placed i).2 ⟨inst, hi⟩))
  · intro h
    refine ⟨fun row hr => ?_, fun i hi => ?_⟩
    · obtain ⟨phis, body, last, hxs, hs⟩ := h.shaped (hrows row hr)
      refine blockShape_eq_nil.2 ⟨last, ?_, hs.isTerminator,
        (instShapes_eq_nil (hinst row hr)).2 ⟨?_, ?_, ?_⟩⟩
      · rw [hxs, ← List.append_assoc]
        simp
      · intro i hi ht
        rw [hxs] at hi
        rcases List.mem_append.1 hi with hi | hi
        · rw [Func.not_terminator_of_phi (hs.isPhi i hi)] at ht
          cases ht
        · rcases List.mem_append.1 hi with hi | hi
          · rw [(hs.plain i hi).2] at ht
            cases ht
          · exact List.mem_singleton.1 hi
      · intro i hi inst hin hphi
        rw [hxs] at hi
        have himem : i ∈ phis := by
          rcases List.mem_append.1 hi with hi | hi
          · exact hi
          · have hno : f.flow.isPhi i = false := by
              rcases List.mem_append.1 hi with hi | hi
              · exact (hs.plain i hi).1
              · rw [List.mem_singleton.1 hi]
                exact Func.not_phi_of_terminator hs.isTerminator
            rw [DataFlow.isPhi_of_inst hin, hphi] at hno
            cases hno
        obtain ⟨hn, hm⟩ := hs.edges himem hin
        exact phiEdges_eq_nil.2 ⟨hn, fun p => (hm p).trans (Func.mem_predecessors hc h.ended).symm⟩
      · refine ⟨phis, body ++ [last], hxs, hs.isPhi, fun i hi => ?_⟩
        rcases List.mem_append.1 hi with hi | hi
        · exact (hs.plain i hi).1
        · rw [List.mem_singleton.1 hi]
          exact Func.not_phi_of_terminator hs.isTerminator
    · obtain ⟨inst, hin⟩ := (hc.placed i).1 hi
      exact (operandsDefined_eq_nil hc hin).2 (h.targets hin)

end Verify

namespace Func

/-- The type of a value that is there. -/
def tyOf (f : Func) (v : ValueId) : Ty := ((f.flow.origin? v).map ValueDef.ty).getD .void

/-- The type of what an instruction yields. -/
def yieldTy (f : Func) (i : InstId) : Ty := ((f.flow.result? i).map f.tyOf).getD .void

def Rule (f : Func) (τ : ValueId → Ty) (r : Ty) : Inst → Prop
  | .nullary op => if op = .alloca then r.isPtr = true else f.sig.returns = .void
  | .unary op x =>
    if op = .load then τ x = .ptr r
    else if op = .retValue then f.sig.returns = τ x
    else if op.isCast then ∃ w v, r = .int w ∧ τ x = .int v ∧ if op = .trunc then w < v else v < w
    else r.isInt = true ∧ τ x = r
  | .binary op x y =>
    if op = .store then τ x = .ptr (τ y)
    else if op = .copy then (f.flow.origin? x).any (·.isReg) = true ∧ τ x = τ y
    else if op.isCompare then τ x = τ y ∧ r = .int 1
    else r.isInt = true ∧ τ x = r ∧ τ y = r
  | .phi _ args _ => ∀ v ∈ args, τ v = r
  | .jump _ _ => True
  | .branch _ c _ _ => τ c = .int 1
  | .call _ callee args =>
    ∃ target, f.flow.imports.get? callee = some target ∧ args.map τ = target.sig.params

theorem tyOf_eq {f : Func} {v : ValueId} {o : ValueDef} (h : f.flow.origin? v = some o) :
    f.tyOf v = o.ty := by
  rw [tyOf, h]
  rfl

theorem yieldTy_of_result {f : Func} {i : InstId} {v : ValueId} (h : f.flow.result? i = some v) :
    f.yieldTy i = f.tyOf v := by
  rw [yieldTy, h]
  rfl

theorem yieldTy_congr {f f' : Func} (hf : f.flow.Exact) {i j : InstId}
    (hr : f'.flow.result? j = f.flow.result? i)
    (ho : ∀ {v ty}, f.flow.result? i = some v → f.flow.origin? v = some (.result ty i) →
      f'.flow.origin? v = some (.result ty i)) : f'.yieldTy j = f.yieldTy i := by
  unfold yieldTy
  rw [hr]
  cases hv : f.flow.result? i with
  | none => rfl
  | some v =>
    obtain ⟨ty, hty, -⟩ := hf.result_origin hv
    rw [Option.map_some, Option.map_some, tyOf_eq hty, tyOf_eq (ho hv hty)]

theorem Coherent.ty_ok {f : Func} (hc : f.Coherent) {i : InstId} {inst : Inst}
    (hi : f.flow.inst? i = some inst) {v : ValueId} (hv : v ∈ inst.args) :
    f.flow.ty v = .ok (f.tyOf v) := by
  obtain ⟨o, ho⟩ := hc.flow.operand hi hv
  rw [DataFlow.ty_of_origin ho, tyOf_eq ho]

theorem Coherent.yieldTy_ne {f : Func} (hc : f.Coherent) {ty : Ty} (hvoid : ty ≠ .void)
    (hty : ∀ v, f.flow.ty v ≠ .ok ty) (i : InstId) : f.yieldTy i ≠ ty := by
  unfold yieldTy
  cases hr : f.flow.result? i with
  | none => exact hvoid.symm
  | some v =>
    obtain ⟨ty', ho, -⟩ := hc.flow.result_origin hr
    rw [Option.map_some, Option.getD_some, tyOf_eq ho]
    exact fun he => hty v ((DataFlow.ty_of_origin ho).trans (congrArg _ he))

theorem Coherent.resultTy_ok {f : Func} (hc : f.Coherent) (i : InstId) :
    Verify.resultTy f i = .ok (f.yieldTy i) := by
  unfold Verify.resultTy yieldTy
  cases hr : f.flow.result? i with
  | none => rfl
  | some v =>
    obtain ⟨ty, ho, -⟩ := hc.flow.result_origin hr
    simp only [DataFlow.ty_of_origin ho, Option.map_some, Option.getD_some, tyOf_eq ho]

end Func

namespace Verify

theorem argTy_eq_nil {f : Func} (hc : f.Coherent) {i j : InstId} {inst : Inst} {ty : Ty}
    (hi : f.flow.inst? i = some inst) {v : ValueId} (hv : v ∈ inst.args) :
    argTy f j ty v = .ok [] ↔ f.tyOf v = ty := by
  unfold argTy
  rw [hc.ty_ok hi hv, ok_bind, instErrorIf_eq_nil]
  simp

theorem argTys_eq_nil {f : Func} (hc : f.Coherent) {i : InstId} {inst : Inst} {ty : Ty}
    (hi : f.flow.inst? i = some inst) :
    argTys f i inst ty = .ok [] ↔ ∀ v ∈ inst.args, f.tyOf v = ty := by
  unfold argTys
  rw [flatten_eq_nil]
  exact forall_congr' fun v => forall_congr' fun hv => argTy_eq_nil hc hi hv

theorem argTysAgree_eq_nil {f : Func} (hc : f.Coherent) {i : InstId} {op : Opcode} {x y : ValueId}
    (hi : f.flow.inst? i = some (.binary op x y)) :
    argTysAgree f i (.binary op x y) = .ok [] ↔ f.tyOf x = f.tyOf y := by
  have hx := hc.ty_ok hi (v := x) (by simp [Inst.args])
  have hy := hc.ty_ok hi (v := y) (by simp [Inst.args])
  have htys : (Inst.binary op x y).args.mapM f.flow.ty = .ok [f.tyOf x, f.tyOf y] := by
    simp only [Inst.args, List.mapM_cons, List.mapM_nil, hx, hy, ok_bind, pure_eq_ok]
  unfold argTysAgree
  simp only [htys, ok_bind, instErrorIf_eq_nil]
  by_cases hxy : f.tyOf x = f.tyOf y
  · simp [hxy]
  · have hyx : f.tyOf y ≠ f.tyOf x := fun e => hxy e.symm
    simp [hxy, hyx]

theorem returns_eq_nil {f : Func} {i : InstId} {ty : Ty} :
    returns f i ty = .ok [] ↔ f.sig.returns = ty := by
  unfold returns
  rw [instErrorIf_eq_nil]
  simp

theorem callArgs_eq_nil {f : Func} (hc : f.Coherent) {i : InstId} {op : Opcode} {callee : ImportId}
    {args : List ValueId} {sig : Signature} (hi : f.flow.inst? i = some (.call op callee args)) :
    callArgs f i sig args = .ok [] ↔ args.map f.tyOf = sig.params := by
  unfold callArgs
  have harity : sig.arity = sig.params.length := rfl
  by_cases hlen : sig.arity = args.length
  · simp only [ne_eq, hlen, not_true, if_false]
    have hzip : (∀ p ∈ sig.params.zip args, argTy f i p.1 p.2 = .ok []) ↔
        args.map f.tyOf = sig.params := by
      have hargs : ∀ v ∈ args, ∀ ty, argTy f i ty v = .ok [] ↔ f.tyOf v = ty := fun v hv ty =>
        argTy_eq_nil hc hi hv
      rw [harity] at hlen
      clear hi
      generalize sig.params = ps at hlen ⊢
      induction ps generalizing args with
      | nil =>
        cases args with
        | nil => simp
        | cons => simp at hlen
      | cons p ps ih =>
        cases args with
        | nil => simp at hlen
        | cons v args =>
          simp only [List.zip_cons_cons, List.forall_mem_cons, List.map_cons, List.cons.injEq]
          have htail := ih (fun w hw => hargs w (List.mem_cons_of_mem _ hw)) (by simpa using hlen)
          exact and_congr (hargs v List.mem_cons_self p) htail
    rw [← hzip]
    exact flatten_eq_nil
  · simp only [ne_eq, hlen, not_false_iff, if_true]
    constructor
    · intro h
      obtain ⟨e, _, h⟩ := bind_eq_ok.1 h
      cases h
    · intro h
      rw [harity, ← h, List.length_map] at hlen
      exact absurd rfl hlen

theorem instTypes_eq_nil {f : Func} (hc : f.Coherent) {i : InstId} {inst : Inst}
    (hi : f.flow.inst? i = some inst) :
    instTypes f i = .ok [] ↔ formFits inst = true ∧ f.Rule f.tyOf (f.yieldTy i) inst := by
  unfold instTypes
  rw [DataFlow.inst_eq_ok.2 hi, ok_bind]
  cases hform : formFits inst with
  | false =>
    simp only [Bool.not_false, if_true, error_bind, Bool.false_eq_true, false_and, iff_false]
    intro h
    cases h
  | true =>
    simp only [Bool.not_true, Bool.false_eq_true, if_false, true_and]
    have hr := hc.resultTy_ok i
    cases inst with
    | nullary op =>
      unfold Func.Rule
      by_cases hop : op = .alloca
      · subst hop
        simp only [hr, ok_bind, instErrorIf_eq_nil, if_true, Bool.not_eq_false']
      · simp only [if_neg hop]
        rw [← returns_eq_nil (i := i)]
    | unary op x =>
      have hx := hc.ty_ok hi (v := x) (by simp [Inst.args])
      unfold Func.Rule
      simp only [hr, hx, ok_bind]
      by_cases hl : op = .load
      · simp only [if_pos hl, instErrorIf_eq_nil]
        simp
      · simp only [if_neg hl]
        by_cases hrv : op = .retValue
        · simp only [if_pos hrv]
          exact returns_eq_nil
        · simp only [if_neg hrv]
          cases hcast : op.isCast with
          | true =>
            simp only [if_true, instErrorIf_eq_nil, Bool.not_eq_false']
            generalize f.yieldTy i = r
            generalize f.tyOf x = τ
            cases r <;> cases τ <;> simp
          | false =>
            simp only [Bool.false_eq_true, if_false]
            refine append_eq_nil.trans (and_congr ?_ ?_)
            · rw [instErrorIf_eq_nil, Bool.not_eq_false']
            · rw [argTys_eq_nil hc hi]
              simp [Inst.args]
    | binary op x y =>
      have hx := hc.ty_ok hi (v := x) (by simp [Inst.args])
      have hy := hc.ty_ok hi (v := y) (by simp [Inst.args])
      unfold Func.Rule
      simp only [hr, hx, hy, ok_bind]
      by_cases hs : op = .store
      · simp only [if_pos hs, instErrorIf_eq_nil]
        simp
      · simp only [if_neg hs]
        by_cases hcp : op = .copy
        · simp only [if_pos hcp]
          refine append_eq_nil.trans (and_congr ?_ (argTysAgree_eq_nil hc hi))
          rw [instErrorIf_eq_nil, Bool.not_eq_false']
        · simp only [if_neg hcp]
          cases hcmp : op.isCompare with
          | true =>
            simp only [if_true]
            refine append_eq_nil.trans (and_congr (argTysAgree_eq_nil hc hi) ?_)
            rw [instErrorIf_eq_nil]
            simp
          | false =>
            simp only [Bool.false_eq_true, if_false]
            refine append_eq_nil.trans (and_congr ?_ ?_)
            · rw [instErrorIf_eq_nil, Bool.not_eq_false']
            · rw [argTys_eq_nil hc hi]
              simp [Inst.args]
    | phi op args preds =>
      simp only [hr, ok_bind]
      exact argTys_eq_nil hc hi
    | jump op b =>
      simp [Func.Rule]
    | branch op c t e =>
      rw [argTys_eq_nil hc hi]
      simp [Inst.args, Func.Rule]
    | call op callee args =>
      unfold Func.Rule
      cases hget : f.flow.imports.get? callee with
      | none =>
        simp only [Table.get, hget, ofOption_none, error_bind]
        simp
      | some target =>
        simp only [Table.get, hget, ofOption_some, ok_bind, Option.some.injEq, exists_eq_left']
        exact callArgs_eq_nil hc hi

end Verify

namespace Func

/-- Instruction `i` has run by the time control is in block `b` with `rest` still to run, whatever
edges of `E` it took to get there. -/
def Behind (f : Func) (E : BlockId → BlockId → Prop) (entry b : BlockId) (rest : List InstId)
    (i : InstId) : Prop :=
  ∃ home xs, f.insts home = .ok xs ∧ i ∈ xs ∧ Guards E entry home b ∧ (home = b → i ∉ rest)

/-- The value is there at a point of the function, unless it is not a result at all. -/
def Avail (f : Func) (E : BlockId → BlockId → Prop) (entry b : BlockId) (rest : List InstId)
    (v : ValueId) : Prop :=
  ∀ ⦃ty i⦄, f.flow.origin? v = some (.result ty i) → f.Behind E entry b rest i

/-- The value is the result of an instruction that control never comes to. -/
def Stranded (f : Func) (entry : BlockId) (v : ValueId) : Prop :=
  ∃ ty i home xs, f.flow.origin? v = some (.result ty i) ∧ f.insts home = .ok xs ∧ i ∈ xs ∧
    ¬ Connects f.Leads entry home

/-- The operands of what can be reached are there, with the exception of stranded values. -/
structure Dominated (f : Func) (entry : BlockId) : Prop where
  body : ∀ {b pre u post inst v}, Connects f.Leads entry b → f.insts b = .ok (pre ++ u :: post) →
    f.flow.inst? u = some inst → inst.op.isPhi = false → v ∈ inst.args →
    f.Avail f.Leads entry b (u :: post) v ∨ f.Stranded entry v
  phis : ∀ {b xs u inst v p}, Connects f.Leads entry b → f.insts b = .ok xs → u ∈ xs →
    f.flow.inst? u = some inst → inst.op.isPhi = true → (v, p) ∈ inst.edges →
    Connects f.Leads entry p →
    f.Avail f.Leads entry p [] v ∨ f.Stranded entry v

def Below (f : Func) (entry b : BlockId) (i : InstId) : Prop :=
  ∃ home xs, f.insts home = .ok xs ∧ i ∈ xs ∧ Guards f.Leads entry b home

theorem Below.trans {f : Func} {entry b c : BlockId} {i : InstId} (h : f.Below entry c i)
    (hg : Guards f.Leads entry b c) : f.Below entry b i := by
  obtain ⟨home, xs, hhome, hi, hgc⟩ := h
  exact ⟨home, xs, hhome, hi, hg.trans hgc⟩

theorem find?_first {i u : InstId} {pre post : List InstId} (hn : (pre ++ u :: post).Nodup)
    (hne : u ≠ i) :
    (pre ++ u :: post).find? (fun j => j = i ∨ j = u) = some i ↔ i ∈ pre := by
  induction pre with
  | nil => simp [hne]
  | cons a pre ih =>
    rw [List.cons_append, List.nodup_cons] at hn
    have hau : a ≠ u := fun e => hn.1 (e ▸ List.mem_append_right _ List.mem_cons_self)
    by_cases hai : a = i
    · simp [hai]
    · have hia : i ≠ a := fun e => hai e.symm
      simp only [List.cons_append, List.find?_cons, hai, hau, or_self, decide_false, List.mem_cons,
        hia, false_or]
      exact ih hn.2

end Func

namespace Verify

variable {f : Func} {entry : BlockId} {t : DominatorTree}

theorem instDominatesInst_iff (hc : f.Coherent) (ht : t.Faithful f entry) {b : BlockId}
    {pre post : List InstId} {i u : InstId} {inst : Inst} (hb : f.insts b = .ok (pre ++ u :: post))
    (hi : f.flow.inst? i = some inst) (hcon : Connects f.Leads entry b) :
    (u ≠ i ∧ t.instDominatesInst f i u = true) ↔ f.Behind f.Leads entry b (u :: post) i := by
  obtain ⟨home, xs, hxs, hix⟩ := hc.home hi
  have hhome := hc.blockOf?_eq_some.2 ⟨xs, hxs, hix⟩
  have hu : u ∈ pre ++ u :: post := List.mem_append_right _ List.mem_cons_self
  have hthere := hc.blockOf?_eq_some.2 ⟨_, hb, hu⟩
  have hn := hc.layout.insts_nodup hb
  unfold DominatorTree.instDominatesInst
  rw [hhome, hthere]
  have hbehind : f.Behind f.Leads entry b (u :: post) i ↔
      Guards f.Leads entry home b ∧ (home = b → i ∉ u :: post) := by
    constructor
    · rintro ⟨home', xs', hxs', hix', hg⟩
      obtain rfl := hc.layout.one_block hxs hxs' hix hix'
      exact hg
    · exact fun hg => ⟨home, xs, hxs, hix, hg⟩
  rw [hbehind]
  by_cases hhb : home = b
  · subst hhb
    rw [hxs] at hb
    cases hb
    simp only [ne_eq, not_true, if_false, true_implies]
    obtain ⟨r, hr, hri⟩ := Layout.insts_eq_ok.1 hxs
    rw [hr]
    simp only [Option.map_some, Option.getD_some, hri, beq_iff_eq]
    constructor
    · rintro ⟨hne, hf⟩
      rw [Func.find?_first hn hne] at hf
      refine ⟨hcon.guards_self, fun hm => ?_⟩
      exact (List.nodup_append.1 hn).2.2 i hf i hm rfl
    · rintro ⟨-, hm⟩
      have hne : u ≠ i := fun e => hm (e ▸ List.mem_cons_self)
      refine ⟨hne, (Func.find?_first hn hne).2 ?_⟩
      exact (List.mem_append.1 hix).resolve_right hm
  · simp only [ne_eq, hhb, not_false_iff, if_true, ht.dominates_iff, false_implies, and_true]
    refine ⟨fun h => h.2, fun h => ⟨?_, h⟩⟩
    rintro rfl
    exact hhb (hc.layout.one_block hxs hb hix hu)

theorem instDominatesBlock_iff (hc : f.Coherent) (ht : t.Faithful f entry) {b : BlockId}
    {i : InstId} {inst : Inst} (hi : f.flow.inst? i = some inst) :
    t.instDominatesBlock f i b = true ↔ f.Behind f.Leads entry b [] i := by
  obtain ⟨home, xs, hxs, hix⟩ := hc.home hi
  unfold DominatorTree.instDominatesBlock
  rw [hc.blockOf?_eq_some.2 ⟨xs, hxs, hix⟩]
  simp only [ht.dominates_iff]
  constructor
  · exact fun hg => ⟨home, xs, hxs, hix, hg, fun _ => List.not_mem_nil⟩
  · rintro ⟨home', xs', hxs', hix', hg, -⟩
    obtain rfl := hc.layout.one_block hxs hxs' hix hix'
    exact hg

/-- What a phi takes from reachable blocks is defined by their ends. -/
def phiUseBehind (f : Func) (entry : BlockId) (i : InstId) (v : ValueId) (inst : Inst) : Prop :=
  ∀ p, (v, p) ∈ inst.edges → Connects f.Leads entry p → f.Behind f.Leads entry p [] i

theorem useDominated_ok (hc : f.Coherent) (ht : t.Faithful f entry) {i u : InstId}
    {v : ValueId} {inst : Inst} (hv : f.flow.result? i = some v) (hu : f.flow.inst? u = some inst)
    {b : BlockId} {pre post : List InstId} (hb : f.insts b = .ok (pre ++ u :: post))
    (hcon : Connects f.Leads entry b) :
    ∃ ok, useDominated f t i v u = .ok ok ∧ (ok = true ↔
      if inst.op.isPhi then phiUseBehind f entry i v inst else f.Behind f.Leads entry b
        (u :: post) i) := by
  obtain ⟨ty, ho, -⟩ := hc.flow.result_origin hv
  obtain ⟨jnst, hi⟩ := DataFlow.hasInst_of_result hv
  unfold useDominated
  rw [DataFlow.inst_eq_ok.2 hu, ok_bind]
  cases hphi : inst.op.isPhi with
  | true =>
    simp only [if_true]
    refine ⟨_, allM_of_forall (q := fun p => t.instDominatesBlock f i p.2) fun p _ => ?_, ?_⟩
    · unfold DominatorTree.valueDominatesBlock
      rw [DataFlow.origin_eq_ok.2 ho, ok_bind]
    · unfold phiUseBehind
      simp only [List.all_eq_true, List.mem_filter, Bool.and_eq_true, decide_eq_true_eq,
        ht.isReachable_iff, instDominatesBlock_iff hc ht hi]
      constructor
      · exact fun h p hp hcp => h (v, p) ⟨hp, rfl, hcp⟩
      · rintro h ⟨w, p⟩ ⟨hp, rfl, hcp⟩
        exact h p hp hcp
  | false =>
    simp only [Bool.false_eq_true, if_false]
    refine ⟨_, rfl, ?_⟩
    rw [Bool.and_eq_true, decide_eq_true_eq]
    exact instDominatesInst_iff hc ht hb hi hcon

theorem usesDominated_eq_nil (hc : f.Coherent) (ht : t.Faithful f entry) {i : InstId} {v : ValueId}
    (hv : f.flow.result? i = some v) :
    usesDominated f t i v = .ok [] ↔ ∀ {b pre u post inst}, Connects f.Leads entry b →
      f.insts b = .ok (pre ++ u :: post) → f.flow.inst? u = some inst → v ∈ inst.args →
      if inst.op.isPhi then phiUseBehind f entry i v inst else f.Behind f.Leads entry b
        (u :: post) i := by
  obtain ⟨ty, ho, -⟩ := hc.flow.result_origin hv
  obtain ⟨us, hus, hmem⟩ := hc.flow.users_ok ho
  have hcheck : ∀ {u ok}, useDominated f t i v u = .ok ok →
      ((do if ← useDominated f t i v u then return []
           return [← instError f i ("does not dominate use in `" ++ (← f.instText u) ++ "`")]) =
        (.ok [] : Checked (List Diagnostic)) ↔ ok = true) := by
    intro u ok hok
    rw [hok, ok_bind]
    cases ok with
    | true => simp
    | false =>
      simp only [Bool.false_eq_true, if_false, iff_false]
      intro h
      obtain ⟨a, -, h⟩ := bind_eq_ok.1 h
      obtain ⟨d, -, h⟩ := bind_eq_ok.1 h
      cases h
  unfold usesDominated
  rw [hus, ok_bind]
  refine flatten_eq_nil.trans ?_
  simp only [List.mem_filter]
  constructor
  · intro h b pre u post inst hcon hb hu hva
    have hub : f.layout.blockOf? u = some b :=
      hc.blockOf?_eq_some.2 ⟨_, hb, List.mem_append_right _ List.mem_cons_self⟩
    obtain ⟨ok, hok, hiff⟩ := useDominated_ok hc ht hv hu hb hcon
    refine hiff.1 ((hcheck hok).1 (h u ⟨(hmem u).2 ⟨inst, hu, hva⟩, ?_⟩))
    rw [hub, Option.any_some, ht.isReachable_iff]
    exact hcon
  · rintro h u ⟨huser, hreach⟩
    obtain ⟨inst, hu, hva⟩ := (hmem u).1 huser
    obtain ⟨b, xs, hb, hx⟩ := hc.home hu
    obtain ⟨pre, post, rfl, -⟩ := split_first hx
    rw [hc.blockOf?_eq_some.2 ⟨_, hb, hx⟩, Option.any_some, ht.isReachable_iff] at hreach
    obtain ⟨ok, hok, hiff⟩ := useDominated_ok hc ht hv hu hb hreach
    exact (hcheck hok).2 (hiff.2 (h hreach hb hu hva))

theorem instBody_eq_nil {b : BlockId} {i : InstId} :
    instBody f t b i = .ok [] ↔ instTypes f i = .ok [] ∧
      ∀ v, f.flow.result? i = some v → t.isReachable b = true → usesDominated f t i v = .ok [] := by
  unfold instBody
  cases hr : f.flow.result? i with
  | none =>
    simp only [false_implies, implies_true, and_true, reduceCtorEq]
    constructor
    · intro h
      obtain ⟨e, he, h⟩ := bind_eq_ok.1 h
      rw [he, Except.ok.inj h]
    · intro h
      rw [h]
      rfl
  | some v =>
    simp only [Option.some.injEq, forall_eq']
    cases hreach : t.isReachable b with
    | false =>
      simp only [Bool.false_eq_true, if_false, false_implies, and_true]
      constructor
      · intro h
        obtain ⟨e, he, h⟩ := bind_eq_ok.1 h
        rw [he, Except.ok.inj h]
      · intro h
        rw [h]
        rfl
    | true =>
      simp only [if_true, true_implies]
      exact append_eq_nil

theorem body_eq_nil :
    body f t = .ok [] ↔ ∀ row ∈ f.layout.rows,
      ∀ i ∈ row.insts, instBody f t row.block i = .ok [] := by
  unfold body
  constructor
  · intro h
    obtain ⟨errors, he, h⟩ := bind_eq_ok.1 h
    have hflat := List.flatten_eq_nil_iff.1 (Except.ok.inj h)
    intro row hrow
    obtain ⟨here, hhere, hm⟩ := mapM_ok_forall he row hrow
    refine mapM_flatten_nil.1 ⟨here, hm, ?_⟩
    rw [List.flatten_eq_nil_iff]
    exact fun ds hds => hflat ds (List.mem_flatten.2 ⟨here, hhere, hds⟩)
  · intro h
    let none : Row → List (List Diagnostic) := fun row => row.insts.map fun _ => []
    have hrows : f.layout.rows.mapM (fun row => row.insts.mapM (instBody f t row.block)) =
        .ok (f.layout.rows.map none) :=
      mapM_of_forall fun row hrow => mapM_of_forall fun i hi => h row hrow i hi
    rw [hrows, ok_bind]
    have hnil : (f.layout.rows.map none).flatten.flatten = [] := by
      rw [List.flatten_eq_nil_iff]
      intro ds hds
      obtain ⟨xs, hxs, hds⟩ := List.mem_flatten.1 hds
      obtain ⟨row, -, rfl⟩ := List.mem_map.1 hxs
      obtain ⟨_, -, rfl⟩ := List.mem_map.1 hds
      rfl
    rw [hnil]
    rfl

end Verify

namespace Func

/-- A function without errors. -/
structure Valid (f : Func) (entry : BlockId) : Prop where
  starts : f.entry = .ok entry
  shape : f.WellShaped
  types : ∀ {i inst}, f.flow.inst? i = some inst → Verify.formFits inst = true ∧
    f.Rule f.tyOf (f.yieldTy i) inst
  dominated : f.Dominated entry

theorem Valid.phi_yields {f : Func} {entry : BlockId} (h : f.Valid entry)
    (hphis : ∀ c phis, f.Reachable c → f.phis c = .ok phis → ∀ i ∈ phis, ∃ r, f.flow.result? i =
      some r) {b : BlockId}
    {xs : List InstId} {i : InstId} (hb : Connects f.Leads entry b)
    (hxs : f.insts b = .ok xs) (hi : i ∈ xs) (hphi : f.flow.isPhi i = true) :
    ∃ r, f.flow.result? i = some r := by
  refine hphis b (xs.takeWhile f.flow.isPhi) ((reachable_iff h.starts).2 hb) ?_ i
    (h.shape.mem_phis hxs hi hphi)
  unfold phis
  rw [hxs, ok_bind]

theorem Arranged.bound {f : Func} (h : f.Arranged) : ∀ b ∈ f.blocks, b.index < f.blockBound := by
  intro b hb
  obtain ⟨info, hinfo⟩ := Table.contains_iff.1 ((h.known b).1 hb)
  exact Table.get?_lt_bound hinfo

theorem Coherent.bound {f : Func} (hc : f.Coherent) : ∀ b ∈ f.blocks, b.index < f.blockBound :=
  hc.arranged.bound

theorem exists_entry {f : Func} (h : f.isEmpty = false) : ∃ entry, f.entry = .ok entry := by
  unfold isEmpty at h
  cases hf : f.layout.firstBlock? with
  | none =>
    rw [hf] at h
    cases h
  | some b => exact ⟨b, entry_eq_ok.2 hf⟩

/-- The tree of a well-shaped function tells which operands are there. -/
theorem dominated_iff {f : Func} {entry : BlockId} {t : DominatorTree} (hc : f.Coherent)
    (ht : t.Faithful f entry) :
    f.Dominated entry ↔ ∀ row ∈ f.layout.rows, ∀ i ∈ row.insts, ∀ v, f.flow.result? i = some v →
      t.isReachable row.block = true → Verify.usesDominated f t i v = .ok [] := by
  have hrows : ∀ row ∈ f.layout.rows, f.insts row.block = .ok row.insts := fun row hr =>
    Layout.insts_of_mem hc.layout.blocks_nodup hr
  constructor
  · intro hd row hrow i hi v hv hreach
    rw [ht.isReachable_iff] at hreach
    obtain ⟨ty, ho, -⟩ := hc.flow.result_origin hv
    have hnot : ¬ f.Stranded entry v := by
      rintro ⟨ty', i', home, xs, ho', hxs, hix, hun⟩
      rw [ho] at ho'
      cases ho'
      rw [hc.layout.one_block hxs (hrows row hrow) hix hi] at hun
      exact hun hreach
    rw [Verify.usesDominated_eq_nil hc ht hv]
    intro b pre u post inst hcon hb hu hva
    cases hphi : inst.op.isPhi with
    | true =>
      rw [if_pos rfl]
      intro p hp hcp
      exact (hd.phis hcon hb (List.mem_append_right _ List.mem_cons_self) hu hphi hp
        hcp).resolve_right hnot ho
    | false =>
      rw [if_neg (by simp)]
      exact (hd.body hcon hb hu hphi hva).resolve_right hnot ho
  · intro h
    -- A result that is used comes from a reachable block, where its uses were looked at, or is
    -- stranded.
    have hsplit : ∀ {u inst v}, f.flow.inst? u = some inst → v ∈ inst.args → ∀ {ty i},
        f.flow.origin? v = some (.result ty i) →
        (f.flow.result? i = some v ∧ Verify.usesDominated f t i v = .ok []) ∨
        f.Stranded entry v := by
      intro u inst v hu hva ty i ho
      have hr := hc.flow.origin_result ho
      obtain ⟨jnst, hj⟩ := DataFlow.hasInst_of_result hr
      obtain ⟨home, xs, hxs, hix⟩ := hc.home hj
      by_cases hcon : Connects f.Leads entry home
      · obtain ⟨row, hrow, rfl⟩ := Layout.insts_eq_ok.1 hxs
        have hblock := Layout.row?_block hrow
        refine .inl ⟨hr, h row (Layout.row?_mem hrow) i hix v hr ?_⟩
        rw [ht.isReachable_iff, hblock]
        exact hcon
      · exact .inr ⟨ty, i, home, xs, ho, hxs, hix, hcon⟩
    refine ⟨fun {b pre u post inst v} hcon hb hu hphi hva => ?_,
      fun {b xs u inst v p} hcon hb hx hu hphi hp hcp => ?_⟩
    · by_cases hs : f.Stranded entry v
      · exact .inr hs
      · refine .inl fun {ty i} ho => ?_
        obtain ⟨hr, hok⟩ := (hsplit hu hva ho).resolve_right hs
        have := (Verify.usesDominated_eq_nil hc ht hr).1 hok hcon hb hu hva
        rwa [hphi, if_neg (by simp)] at this
    · have hva : v ∈ inst.args := Inst.arg_of_edge hp
      by_cases hs : f.Stranded entry v
      · exact .inr hs
      · refine .inl fun {ty i} ho => ?_
        obtain ⟨hr, hok⟩ := (hsplit hu hva ho).resolve_right hs
        obtain ⟨pre, post, rfl, -⟩ := split_first hx
        have := (Verify.usesDominated_eq_nil hc ht hr).1 hok hcon hb hu hva
        rw [hphi, if_pos rfl] at this
        exact this p hp hcp

/-- Verification finds nothing exactly in valid functions. -/
theorem errors_eq_nil_iff {f : Func} (hc : f.Coherent) :
    f.errors = .ok [] ↔ ∃ entry, f.Valid entry := by
  have hrows : ∀ row ∈ f.layout.rows, f.insts row.block = .ok row.insts := fun row hr =>
    Layout.insts_of_mem hc.layout.blocks_nodup hr
  have htypes : (∀ row ∈ f.layout.rows, ∀ i ∈ row.insts, Verify.instTypes f i = .ok []) ↔
      ∀ {i inst}, f.flow.inst? i = some inst → Verify.formFits inst = true ∧
      f.Rule f.tyOf (f.yieldTy i) inst := by
    constructor
    · intro h i inst hi
      obtain ⟨b, xs, hb, hx⟩ := hc.home hi
      obtain ⟨row, hrow, rfl⟩ := Layout.insts_eq_ok.1 hb
      exact (Verify.instTypes_eq_nil hc hi).1 (h row (Layout.row?_mem hrow) i hx)
    · intro h row hrow i hi
      obtain ⟨inst, hinst⟩ := hc.inst_of_mem (hrows row hrow) hi
      exact (Verify.instTypes_eq_nil hc hinst).2 (h hinst)
  have hbody : ∀ {entry t}, t.Faithful f entry → (Verify.body f t = .ok [] ↔
      (∀ {i inst}, f.flow.inst? i = some inst →
        Verify.formFits inst = true ∧ f.Rule f.tyOf (f.yieldTy i) inst) ∧ f.Dominated entry) := by
    intro entry t ht
    rw [Verify.body_eq_nil, ← htypes, dominated_iff hc ht]
    simp only [Verify.instBody_eq_nil]
    constructor
    · exact fun h => ⟨fun row hrow i hi => (h row hrow i hi).1, fun row hrow i hi =>
        (h row hrow i hi).2⟩
    · exact fun h row hrow i hi => ⟨h.1 row hrow i hi, h.2 row hrow i hi⟩
  unfold errors
  constructor
  · intro h
    cases hempty : f.isEmpty with
    | true =>
      rw [hempty] at h
      cases h
    | false =>
      rw [hempty] at h
      simp only [Bool.false_eq_true, if_false] at h
      obtain ⟨shape, hshape, h⟩ := bind_eq_ok.1 h
      cases shape with
      | cons d ds => cases h
      | nil =>
        simp only [List.isEmpty_nil, if_true] at h
        have hws := (Verify.shape_eq_nil hc).1 hshape
        obtain ⟨entry, hentry⟩ := exists_entry hempty
        obtain ⟨t, ht, hfaith, -⟩ := DominatorTree.ofFunc_ok hentry hws.closed hc.bound
        rw [ht, ok_bind] at h
        obtain ⟨hty, hdom⟩ := (hbody hfaith).1 h
        exact ⟨entry, hentry, hws, hty, hdom⟩
  · rintro ⟨entry, hv⟩
    obtain ⟨t, ht, hfaith, -⟩ := DominatorTree.ofFunc_ok hv.starts hv.shape.closed hc.bound
    rw [isEmpty_of_entry hv.starts, (Verify.shape_eq_nil hc).2 hv.shape]
    simp only [Bool.false_eq_true, if_false, ok_bind, List.isEmpty_nil, if_true, ht]
    exact (hbody hfaith).2 ⟨hv.types, hv.dominated⟩

theorem verified_of_any {f : Func} (h : f.errors.toOption.any (·.isEmpty) = true) :
    f.errors = .ok [] := by
  obtain ⟨errors, he, hnil⟩ := exists_of_any h
  rw [he, List.isEmpty_iff.1 hnil]

end Func

end MiddleEnd
