import MiddleEnd.Proofs.SlotWalk

/-!
# Filled phis

After the walk the added phis hear of the edges from blocks that control does not come to, which
bring nothing defined, and so do the loads of such blocks. Then every added phi names the
predecessors of its block once each, and no load of a slot is used any more.
-/

namespace MiddleEnd

namespace Promotion

open Func

section Filling

variable {f : Func} {entry : BlockId} {t : DominatorTree} {p : State} {seen : InstId → Prop}
  {filled filled' : InstId → BlockId → Prop} {g : DataFlow} {τ : ValueId → ValueId}
  {fill : InstId → List (ValueId × BlockId)} {i : InstId} {slot : Slot}

theorem Rewritten.congr (h : Rewritten p entry t seen filled g τ fill)
    (hfilled : ∀ j q, filled j q ↔ filled' j q) :
    Rewritten p entry t seen filled' g τ fill := by
  rwa [show filled' = filled from funext fun j => funext fun q => propext (hfilled j q).symm]

theorem Rewritten.coherent (h : Rewritten p entry t seen filled g τ fill)
    (hP : Planted f entry t p) :
    (p.withFlow g).func.Coherent := hP.coherent.rewire h.exact h.rewired

theorem Rewritten.op_eq (hP : Planted f entry t p) {inst : Inst} (hi : p.flow.inst? i = some inst) :
    (p.rewritten τ fill i inst).op = inst.op := by
  unfold State.rewritten
  split
  · next hm =>
    rw [hP.inst?_added hm] at hi
    cases hi
    rfl
  · exact Inst.op_mapArgs _ _

theorem Rewritten.ended (h : Rewritten p entry t seen filled g τ fill) (hP : Planted f entry t p) :
    (p.withFlow g).func.Ended := by
  have hterm : (p.withFlow g).func.flow.isTerminator = p.func.flow.isTerminator :=
    funext fun i => h.rewired.isTerminator (op_eq hP) i
  intro b xs hxs
  rw [hterm]
  exact hP.ended hxs

theorem Rewritten.feed_undef (h : Rewritten p entry t seen filled g τ fill)
    (hP : Planted f entry t p) {c q : BlockId} (hphi : (i, slot) ∈ p.phisAt c) (hnew : ¬ filled i q)
    (hq : ¬ Connects p.func.Leads entry q) :
    ∃ v g' g'' fill', g.undef slot.ty = (v, g') ∧ g'.addIncoming i v q = .ok g'' ∧
      Rewritten p entry t seen (fun j d => filled j d ∨ (j = i ∧ d = q)) g'' τ fill' := by
  obtain ⟨v, g', hg, hv, hg', hR⟩ := DataFlow.shared_ok h.exact (o := .undef slot.ty) (.inr rfl)
  have h' := h.extend hg' hR
  obtain ⟨g'', hadd, h''⟩ := h'.feed hP hphi hnew (DataFlow.ty_of_origin hv) (fun slot' hs => by
    rintro rfl
    exact h'.result_ne_undef (hP.hidden_here hs).result hP.coherent _ hv) fun hc => absurd hc hq
  exact ⟨v, g', g'', _, hg, hadd, h''⟩

theorem feedAll_ok (hP : Planted f entry t p)
    (h : Rewritten p entry t seen filled g τ fill) {c : BlockId} (hphi : (i, slot) ∈ p.phisAt c)
    {preds : List BlockId} (hn : preds.Nodup)
    (hpreds : ∀ q ∈ preds, ¬ Connects p.func.Leads entry q ∧ ¬ filled i q) :
    ∃ s, preds.foldlM (fun (s : State) (pred : BlockId) => (do
        return s.withFlow (← (s.flow.undef slot.ty).2.addIncoming i (s.flow.undef slot.ty).1 pred) :
          Checked State))
        (p.withFlow g) = .ok s ∧
      ∃ g' fill', s = p.withFlow g' ∧ Rewritten p entry t seen
        (fun j d => filled j d ∨ (j = i ∧ d ∈ preds)) g' τ fill' := by
  refine foldlM_yields (fun told s => ∃ g' fill', s = p.withFlow g' ∧
    Rewritten p entry t seen (fun j d => filled j d ∨ (j = i ∧ d ∈ told)) g' τ fill') ?_ ?_
  · exact ⟨g, fill, rfl, h.congr fun j d => by simp⟩
  · rintro told q untold s hsplit ⟨g', fill', rfl, h'⟩
    obtain ⟨hq, hnew⟩ := hpreds q (hsplit ▸ List.mem_append_right _ List.mem_cons_self)
    have hnot : q ∉ told := by
      rw [hsplit] at hn
      exact fun hm => List.disjoint_of_nodup_append hn hm List.mem_cons_self
    obtain ⟨v, g₁, g₂, fill₂, hundef, hadd, h₂⟩ := h'.feed_undef hP hphi (by simp [hnew, hnot]) hq
    have hundef' : (p.withFlow g').flow.undef slot.ty = (v, g₁) := hundef
    refine ⟨p.withFlow g₂, ?_, g₂, fill₂, rfl, h₂.congr fun j d => ?_⟩
    · rw [hundef', hadd]
      rfl
    · rw [or_assoc, ← and_or_left, List.mem_append, List.mem_singleton]

/-- The phis hear of the edges from blocks that control does not come to. -/
theorem fillUnreachable_ok (hP : Planted f entry t p)
    (h : Rewritten p entry t seen (fun i q => Connects p.func.Leads entry q ∧ p.Fed i q) g τ fill) :
    ∃ g' fill', (p.withFlow g).fillUnreachable t = .ok (p.withFlow g') ∧
      Rewritten p entry t seen p.Fed g' τ fill' := by
  have ht := hP.tree_here
  obtain ⟨s, hs, g', fill', rfl, h'⟩ : ∃ s, (p.withFlow g).fillUnreachable t = .ok s ∧
      ∃ g' fill', s = p.withFlow g' ∧
      Rewritten p entry t seen (fun i q => (Connects p.func.Leads entry q ∨ i ∈ p.added) ∧
      p.Fed i q) g' τ fill' := by
    unfold State.fillUnreachable
    refine foldlM_yields (fun done s => ∃ g' fill', s = p.withFlow g' ∧
      Rewritten p entry t seen (fun i q => (Connects p.func.Leads entry q ∨ i ∈ done) ∧
      p.Fed i q) g' τ fill') ?_ ?_
    · exact ⟨g, fill, rfl, h.congr fun i q => by simp⟩
    · rintro done phi post s hsplit ⟨g', fill', rfl, h'⟩
      have hphi : phi ∈ p.added := by
        rw [show p.added = done ++ phi :: post from hsplit]
        exact List.mem_append_right _ List.mem_cons_self
      obtain ⟨c, slot, hc⟩ := hP.mem_added.1 hphi
      obtain ⟨-, -, r, hr, ho⟩ := hP.phi hc
      obtain ⟨ys, hys, hmem⟩ := hP.insts_phi hc
      have hblock : (p.withFlow g').func.layout.blockOf? phi = some c :=
        hP.coherent.blockOf?_eq_some.2 ⟨ys, hys, hmem⟩
      have hres : (p.withFlow g').flow.result phi = .ok r :=
        DataFlow.result_eq_ok.2 ((h'.rewired.result? phi).trans hr)
      have hty : (p.withFlow g').flow.ty r = .ok slot.ty :=
        DataFlow.ty_of_origin (h'.rewired.origin? ho)
      simp only [hblock, hres, ok_bind, hty]
      have hpred : ∀ q, q ∈ (p.withFlow g').func.predecessors c ↔ p.func.Leads q c := fun q => by
        rw [Func.mem_predecessors (h'.coherent hP) (h'.ended hP), h'.leads_eq hP]
      have hnot : phi ∉ done := by
        have hn := hP.added_nodup
        rw [show p.added = done ++ phi :: post from hsplit] at hn
        exact fun hm => List.disjoint_of_nodup_append hn hm List.mem_cons_self
      have hleft : ∀ {q}, q ∈ ((p.withFlow g').func.predecessors c).filter (!t.isReachable ·) ↔
          p.func.Leads q c ∧ ¬ Connects p.func.Leads entry q := by
        intro q
        rw [List.mem_filter, hpred, Bool.not_eq_true', ← Bool.not_eq_true, ht.isReachable_iff]
      have hn : (((p.withFlow g').func.predecessors c).filter (!t.isReachable ·)).Nodup :=
        (KeySet.nodup _).filter _
      obtain ⟨s, hs, g'', fill'', rfl, h''⟩ := feedAll_ok hP h' hc hn fun q hq => by
        have hq := (hleft.1 hq).2
        exact ⟨hq, fun hfed => hfed.1.elim hq hnot⟩
      refine ⟨_, hs, g'', fill'', rfl, h''.congr fun i q => ?_⟩
      simp only [hleft, List.mem_append, List.mem_singleton]
      constructor
      · rintro (⟨hq | hi, hfed⟩ | ⟨rfl, hl, -⟩)
        · exact ⟨.inl hq, hfed⟩
        · exact ⟨.inr (.inl hi), hfed⟩
        · exact ⟨.inr (.inr rfl), c, slot, hc, hl⟩
      · rintro ⟨hq | hi | rfl, hfed⟩
        · exact .inl ⟨.inl hq, hfed⟩
        · exact .inl ⟨.inr hi, hfed⟩
        · obtain ⟨c', slot', hc', hl⟩ := hfed
          obtain ⟨rfl, rfl⟩ := hP.phi_unique hc hc'
          by_cases hq : Connects p.func.Leads entry q
          · exact .inl ⟨.inl hq, c, slot, hc, hl⟩
          · exact .inr ⟨rfl, hl, hq⟩
  refine ⟨g', fill', hs, h'.congr fun i q => ?_⟩
  constructor
  · exact fun hfed => hfed.2
  · rintro ⟨c, slot, hphi, hl⟩
    exact ⟨.inr (hP.mem_added.2 ⟨c, slot, hphi⟩), c, slot, hphi, hl⟩

def Unread (p : State) (gone : InstId → Prop) (g : DataFlow) : Prop :=
  ∀ ⦃l r i inst⦄, gone l → p.Loads l r → g.inst? i = some inst → r ∉ inst.args

theorem fillLoad_ok (hP : Planted f entry t p) (h : Rewritten p entry t seen filled g τ fill)
    {gone : InstId → Prop} (hun : Unread p gone g) {l : InstId} {r : ValueId} (hs : slot ∈ p.slots)
    (hi : p.flow.inst? l = some (.unary .load slot.address)) (hr : p.flow.result? l = some r) :
    ∃ b g' τ' fill', (p.withFlow g).builder.replaceByUndef r = .ok b ∧ b = (p.withFlow g').builder ∧
      Rewritten p entry t seen filled g' τ' fill' ∧ Unread p (fun j => gone j ∨ j = l) g' := by
  obtain ⟨r', hr', hrty⟩ := hP.load hs hi
  cases hr.symm.trans hr'
  obtain ⟨v, g₁, hg₁, hv, hexact, hR₁⟩ :=
    DataFlow.shared_ok h.exact (o := .undef slot.ty) (.inr rfl)
  have h₁ := h.extend hexact hR₁
  have hundef : ∀ {w l'}, p.flow.result? l' = some w → w ≠ v := by
    rintro w l' hw rfl
    exact h₁.result_ne_undef hw hP.coherent _ hv
  obtain ⟨n, g₂, hrep, hR₂, h₂⟩ :=
    h₁.replace hP hs hi hr (DataFlow.ty_of_origin hv) fun slot' hs' =>
      (hundef (hP.hidden_here hs').result).symm
  refine ⟨_, g₂, _, _, ?_, rfl, h₂, ?_⟩
  · unfold Builder.replaceByUndef
    have hty : (p.withFlow g).builder.flow.ty r = .ok slot.ty := h.rewired.ty hrty
    have hblank : (p.withFlow g).builder.flow.undef slot.ty = (v, g₁) := hg₁
    rw [hty, ok_bind]
    simp only [hblank]
    unfold Builder.replaceUse
    rw [show ((p.withFlow g).builder.withFlow g₁).flow.replaceUse r v = _ from hrep]
    rfl
  · intro l' r' i inst hgone hload hinst hm
    obtain ⟨inst₁, hinst₁, rfl⟩ := hR₂.exists_inst hinst
    obtain ⟨inst₀, hinst₀, rfl⟩ := hR₁.exists_inst hinst₁
    rw [Inst.args_mapArgs] at hm
    obtain ⟨x, hx, hxr⟩ := List.mem_map.1 hm
    have hyields : p.flow.result? l' = some r' := by
      obtain ⟨slot', -, -, hyields⟩ := hload
      exact hyields
    by_cases he : x = r
    · rw [he, show DataFlow.swap r v r = v from if_pos rfl] at hxr
      exact hundef hyields hxr.symm
    · rw [DataFlow.swap_of_ne he] at hxr
      subst hxr
      rcases hgone with hgone | rfl
      · exact hun hgone hload hinst₀ hx
      · exact he (Option.some.inj (hyields.symm.trans hr))

/-- The loads that the walk did not meet read nothing defined. -/
theorem fillLoads_ok (hP : Planted f entry t p) (h : Rewritten p entry t seen filled g τ fill) :
    ∃ g' τ' fill', (p.withFlow g).fillLoads = .ok (p.withFlow g') ∧
      Rewritten p entry t seen filled g' τ' fill' ∧ Unread p (· ∈ p.accesses) g' := by
  obtain ⟨s, hs, g', τ', fill', rfl, h', hun⟩ : ∃ s, (p.withFlow g).fillLoads = .ok s ∧
      ∃ g' τ' fill', s = p.withFlow g' ∧ Rewritten p entry t seen filled g' τ' fill' ∧
      Unread p (· ∈ p.accesses) g' := by
    unfold State.fillLoads
    refine foldlM_yields (fun done s => ∃ g' τ' fill', s = p.withFlow g' ∧
      Rewritten p entry t seen filled g' τ' fill' ∧ Unread p (· ∈ done) g') ?_ ?_
    · exact ⟨g, τ, fill, rfl, h, fun _ _ _ _ hl => absurd hl List.not_mem_nil⟩
    · rintro done i post s hsplit ⟨g', τ', fill', rfl, h', hun⟩
      have hgrow : ∀ {g''}, Unread p (fun j => j ∈ done ∨ j = i) g'' →
          Unread p (· ∈ done ++ [i]) g'' := by
        intro g'' hun' l r j inst hl
        exact hun' (by simpa using hl)
      obtain ⟨slot, hs, inst, hi, hm⟩ := (hP.accesses i).1 (by
        rw [show p.accesses = done ++ i :: post from hsplit]
        exact List.mem_append_right _ List.mem_cons_self)
      have hold := hP.not_added hi
      have hinst := h'.inst?_old (hP.inst?_old hi) hold
      simp only [show (p.withFlow g').flow.inst i = _ from DataFlow.inst_eq_ok.2 hinst, ok_bind,
        Inst.op_mapArgs]
      rcases hP.access_cases (hP.inst?_old hi) with ⟨slot', hs', rfl⟩ | ⟨slot', hs', y, rfl⟩ | hnone
      · obtain ⟨r, hr, -⟩ := hP.load hs' (hP.inst?_old hi)
        have hres : (p.withFlow g').flow.result i = .ok r :=
          DataFlow.result_eq_ok.2 ((h'.rewired.result? i).trans hr)
        obtain ⟨ty, ho, -⟩ := hP.coherent.flow.result_origin hr
        obtain ⟨used, hused, hiff⟩ := h'.exact.hasUsers_ok (h'.rewired.origin? ho)
        have hop : ¬ (Inst.unary .load slot'.address).op ≠ .load := fun hne => hne rfl
        rw [if_neg hop, hres, ok_bind, show (p.withFlow g').flow.hasUsers r = _ from hused, ok_bind]
        cases used with
        | true =>
          obtain ⟨b, g'', τ'', fill'', hb, rfl, h'', hun''⟩ :=
            fillLoad_ok hP h' hun hs' (hP.inst?_old hi) hr
          rw [if_pos rfl, hb]
          exact ⟨p.withFlow g'', rfl, g'', τ'', fill'', rfl, h'', hgrow hun''⟩
        | false =>
          refine ⟨p.withFlow g', rfl, g', τ', fill', rfl, h', hgrow ?_⟩
          rintro l r' j inst (hl | rfl) hload hj
          · exact hun hl hload hj
          · intro hr'
            obtain ⟨_, -, -, hyields⟩ := hload
            cases hr.symm.trans hyields
            exact absurd (hiff.2 ⟨j, inst, hj, hr'⟩) (by decide)
      · refine ⟨p.withFlow g', rfl, g', τ', fill', rfl, h', hgrow ?_⟩
        rintro l r j inst (hl | rfl) hload
        · exact hun hl hload
        · obtain ⟨_, -, hi', -⟩ := hload
          cases (hP.inst?_old hi).symm.trans hi'
      · exact absurd hm (hnone slot hs)
  exact ⟨g', τ', fill', hs, h', hun⟩

end Filling

end Promotion

end MiddleEnd
