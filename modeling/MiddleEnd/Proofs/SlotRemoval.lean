import MiddleEnd.Proofs.Culling
import MiddleEnd.Proofs.SlotRuns
import MiddleEnd.Proofs.Traversal

/-!
# Slots removed

Once no load is read any more, the slots go with all that accesses them, and so do the added phis
that nothing else depends on. What is left uses nothing of this, and what was stored to the cells of
the slots was read by their loads alone, so that no run notices.
-/

namespace MiddleEnd

namespace Promotion

open Func Search

def State.sources (s : State) (i : InstId) : Checked (List InstId) := do
  return (← s.flow.definers (← s.flow.inst i).args).filter (· ∈ s.added)

def State.usedOutside (s : State) (phi : InstId) : Checked Bool := do
  let users ← s.flow.users (← s.flow.result phi)
  return users.toList.any fun user => user ∉ s.added && user ∉ s.accesses

theorem State.sources_ok {s : State} (hc : s.func.Coherent) {i : InstId} {inst : Inst}
    (hi : s.flow.inst? i = some inst) :
    ∃ js, s.sources i = .ok js ∧ ∀ j, j ∈ js ↔ s.func.Feeds j i ∧ j ∈ s.added := by
  obtain ⟨js, hjs, -, hfeeds⟩ := hc.definers_ok hi
  refine ⟨js.filter (· ∈ s.added), ?_, fun j => ?_⟩
  · rw [sources, DataFlow.inst_eq_ok.2 hi, ok_bind,
      show s.flow.definers inst.args = .ok js from hjs, ok_bind]
    rfl
  · rw [List.mem_filter, hfeeds, decide_eq_true_eq]

theorem State.sources_added {s : State} {i j : InstId} {js : List InstId} (h : s.sources i = .ok js)
    (hj : j ∈ js) :
    j ∈ s.added := by
  obtain ⟨inst, -, h⟩ := bind_eq_ok.1 h
  obtain ⟨all, -, h⟩ := bind_eq_ok.1 h
  cases h
  exact of_decide_eq_true (List.mem_filter.1 hj).2

theorem State.usedOutside_ok {s : State} (hc : s.func.Coherent) {phi : InstId} {r : ValueId}
    (hr : s.flow.result? phi = some r) : ∃ q, s.usedOutside phi = .ok q ∧
      (q = true ↔ ∃ j inst, s.flow.inst? j = some inst ∧ r ∈ inst.args ∧ j ∉ s.added ∧
        j ∉ s.accesses) := by
  obtain ⟨ty, ho, -⟩ := hc.flow.result_origin hr
  obtain ⟨users, husers, huses⟩ := hc.flow.users_ok ho
  have husers' : s.flow.users r = .ok users := husers
  refine ⟨_, by rw [usedOutside, DataFlow.result_eq_ok.2 hr, ok_bind, husers', ok_bind]; rfl, ?_⟩
  have huses : ∀ j, j ∈ users.toList ↔ ∃ inst, s.flow.inst? j = some inst ∧ r ∈ inst.args := huses
  simp only [List.any_eq_true, huses, Bool.and_eq_true, decide_eq_true_eq]
  constructor
  · rintro ⟨j, ⟨inst, hj, hu⟩, hout⟩
    exact ⟨j, inst, hj, hu, hout⟩
  · rintro ⟨j, inst, hj, hu, hout⟩
    exact ⟨j, ⟨inst, hj, hu⟩, hout⟩

/-- The phis that are needed: those that something uses, apart from accesses of slots and phis that
are not needed. -/
structure Needs (s : State) (needed : List InstId) : Prop where
  added : ∀ i ∈ needed, i ∈ s.added
  used : ∀ {phi r j inst}, phi ∈ s.added → s.flow.result? phi = some r →
    s.flow.inst? j = some inst → r ∈ inst.args →
    (j ∈ s.added → j ∈ needed) → j ∉ s.accesses → phi ∈ needed

theorem neededPhis_ok {s : State} (hc : s.func.Coherent)
    (hphi : ∀ i ∈ s.added, ∃ inst r, s.flow.inst? i = some inst ∧ s.flow.result? i = some r) :
    ∃ needed, s.neededPhis = .ok needed ∧ Needs s needed := by
  have hused : ∀ i ∈ s.added, ∃ q, s.usedOutside i = .ok q ∧
      (q = true ↔ ∃ r j inst, s.flow.result? i = some r ∧ s.flow.inst? j = some inst ∧
      r ∈ inst.args ∧ j ∉ s.added ∧ j ∉ s.accesses) := by
    intro i hi
    obtain ⟨-, r, -, hr⟩ := hphi i hi
    obtain ⟨q, hq, hiff⟩ := State.usedOutside_ok hc hr
    refine ⟨q, hq, hiff.trans ⟨fun hout => ⟨r, hout.imp fun j hj => hj.imp fun inst h => ⟨hr, h⟩⟩,
      ?_⟩⟩
    rintro ⟨r', j, inst, hr', hj⟩
    cases hr.symm.trans hr'
    exact ⟨j, inst, hj⟩
  obtain ⟨roots, hroots, hroot⟩ := filterM_exists hused
  have hsources : ∀ i ∈ s.added, ∃ js, s.sources i = .ok js ∧ ∀ j, j ∈ js ↔ s.func.Feeds j i ∧
      j ∈ s.added := by
    intro i hi
    obtain ⟨inst, -, hinst, -⟩ := hphi i hi
    exact State.sources_ok hc hinst
  have hwithin : Within s.sources s.added := by
    intro i hi
    obtain ⟨js, hjs, hmem⟩ := hsources i hi
    exact ⟨js, hjs, fun j hj => ((hmem j).1 hj).2⟩
  obtain ⟨needed, hneeded, hmem⟩ :=
    reach_ok [] _ hwithin (Nat.le_succ _) (fun _ hx => absurd hx List.not_mem_nil)
    fun i hi => ((hroot i).1 hi).1
  simp only [List.not_mem_nil, false_or, not_false_eq_true, implies_true, and_true] at hmem
  refine ⟨needed, ?_, fun i hi => ?_, fun {phi r j inst} hadded hr hj hu hneed hacc => ?_⟩
  · exact (congrArg (· >>= reach s.sources (s.added.length + 1) []) hroots).trans hneeded
  · obtain ⟨root, hrootin, p, hp⟩ := (hmem i).1 hi
    rcases hp.last_step with ⟨rfl, -⟩ | ⟨k, q, -, ⟨js, hjs, hi'⟩, -⟩
    · exact ((hroot _).1 hrootin).1
    · exact State.sources_added hjs hi'
  · by_cases hj' : j ∈ s.added
    · obtain ⟨root, hrootin, p, hp⟩ := (hmem j).1 (hneed hj')
      obtain ⟨js, hjs, hfeeds⟩ := hsources j hj'
      exact (hmem phi).2 ⟨root, hrootin, _,
        hp.snoc ⟨js, hjs, (hfeeds phi).2 ⟨⟨r, inst, hr, hj, hu⟩, hadded⟩⟩⟩
    · exact (hmem phi).2 ⟨phi, (hroot phi).2 ⟨hadded, r, j, inst, hr, hj, hu, hj', hacc⟩,
        _, .single phi⟩

variable {f : Func} {E : BlockId → BlockId → Prop} {entry : BlockId} {t : DominatorTree} {p : State}
  {g base : DataFlow} {τ : ValueId → ValueId} {fill : InstId → List (ValueId × BlockId)}
  {needed : List InstId} {i j : InstId} {inst : Inst} {slot : Slot} {v : ValueId}

def State.removed (p : State) (needed : List InstId) : List InstId :=
  p.added.filter (· ∉ needed) ++ (p.accesses ++ p.slots.map (·.inst))

theorem State.mem_removed : i ∈ p.removed needed ↔
    (i ∈ p.added ∧ i ∉ needed) ∨ i ∈ p.accesses ∨ ∃ slot ∈ p.slots, slot.inst = i := by
  unfold State.removed
  simp only [List.mem_append, List.mem_filter, decide_eq_true_eq, List.mem_map]

def State.Silent (p : State) : Prop :=
  ∀ slot ∈ p.slots, ∀ i y, p.flow.inst? i = some (.binary .store slot.address y) →
    p.flow.result? i = none

namespace Filled

variable (h : Filled f entry t p g base τ fill)
include h

theorem fixed_address (hs : slot ∈ p.slots) {x : ValueId} :
    τ x = slot.address ↔ x = slot.address := by
  constructor
  · intro hx
    by_cases hmoved : τ x = x
    · exact hmoved.symm.trans hx
    · exact absurd hx ((h.rewritten.moved hmoved).2 slot hs)
  · rintro rfl
    exact h.rewritten.fixed_of_not_load fun l hl => h.planted.load_ne_address hl hs rfl

theorem private_renamed (hs : slot ∈ p.slots) :
    (p.withFlow g).func.Private slot.inst slot.address where
  slot := by
    have hbase := (h.private_here hs).slot
    have hg := h.renamed.inst? slot.inst
    rw [show base.inst? slot.inst = _ from hbase, Option.map_some] at hg
    refine hg.trans (congrArg some ?_)
    split <;> rfl
  result := (h.renamed.result? _).trans (h.private_here hs).result
  uses {j jnst} hj hmem := by
    obtain ⟨inst, hinst, rfl⟩ := h.renamed.exists_inst hj
    by_cases hadded : j ∈ p.added
    · simp only [hadded, if_true] at hmem ⊢
      exact (h.private_here hs).uses hinst hmem
    · simp only [hadded, if_false] at hmem ⊢
      rw [Inst.args_mapArgs] at hmem
      obtain ⟨x, hx, hxa⟩ := List.mem_map.1 hmem
      rw [(h.fixed_address hs).1 hxa] at hx
      rcases (h.private_here hs).uses hinst hx with rfl | ⟨y, hy, rfl⟩
      · exact .inl (congrArg (Inst.unary .load) ((h.fixed_address hs).2 rfl))
      · refine .inr ⟨τ y, fun he => hy ((h.fixed_address hs).1 he), ?_⟩
        exact congrArg (Inst.binary .store · (τ y)) ((h.fixed_address hs).2 rfl)

theorem mem_accesses : i ∈ p.accesses ↔ ∃ slot ∈ p.slots, ∃ inst, g.inst? i = some inst ∧
    slot.address ∈ inst.args := by
  rw [h.planted.accesses]
  constructor
  · rintro ⟨slot, hs, inst, hi, hm⟩
    have hold := h.planted.not_added hi
    refine ⟨slot, hs, inst.mapArgs τ, ?_, ?_⟩
    · rw [h.renamed.inst?, h.inst?_old hold, hi, Option.map_some, if_neg hold]
    · rw [Inst.args_mapArgs]
      exact List.mem_map.2 ⟨_, hm, (h.fixed_address hs).2 rfl⟩
  · rintro ⟨slot, hs, inst', hi, hm⟩
    obtain ⟨inst, hinst, rfl⟩ := h.renamed.exists_inst hi
    refine ⟨slot, hs, inst, ?_⟩
    by_cases hadded : i ∈ p.added
    · rw [if_pos hadded] at hm
      rcases (h.private_here hs).uses hinst hm with rfl | ⟨y, -, rfl⟩ <;>
        cases (h.inst?_added hadded).symm.trans hinst
    · rw [if_neg hadded, Inst.args_mapArgs] at hm
      obtain ⟨x, hx, hxa⟩ := List.mem_map.1 hm
      exact ⟨(h.inst?_old hadded).symm.trans hinst, (h.fixed_address hs).1 hxa ▸ hx⟩

theorem access_forms (hi : i ∈ p.accesses) :
    ∃ slot ∈ p.slots, g.inst? i = some (.unary .load slot.address) ∨
    ∃ y, y ≠ slot.address ∧ g.inst? i = some (.binary .store slot.address y) := by
  obtain ⟨slot, hs, inst, hinst, hm⟩ := h.mem_accesses.1 hi
  refine ⟨slot, hs, ?_⟩
  rcases (h.private_renamed hs).uses hinst hm with rfl | ⟨y, hy, rfl⟩
  · exact .inl hinst
  · exact .inr ⟨y, hy, hinst⟩

theorem inst?_added_renamed (hi : i ∈ p.added) :
    ∃ args preds, g.inst? i = some (.phi .phi args preds) := by
  have hg := h.renamed.inst? i
  rw [h.inst?_added hi, Option.map_some, if_pos hi] at hg
  exact ⟨_, _, hg⟩

theorem plain_removed (hi : i ∈ p.removed needed) :
    ∃ inst, g.inst? i = some inst ∧ inst.op.isTerminator = false := by
  rcases State.mem_removed.1 hi with ⟨hadded, -⟩ | hacc | ⟨slot, hs, rfl⟩
  · obtain ⟨args, preds, hphi⟩ := h.inst?_added_renamed hadded
    exact ⟨_, hphi, rfl⟩
  · obtain ⟨slot, -, hload | ⟨y, -, hstore⟩⟩ := h.access_forms hacc
    · exact ⟨_, hload, rfl⟩
    · exact ⟨_, hstore, rfl⟩
  · exact ⟨_, (h.private_renamed hs).slot, rfl⟩

theorem removed_nodup : (p.removed needed).Nodup := by
  have hacc : ∀ {i}, i ∈ p.accesses → i ∉ p.added := by
    intro i hi
    obtain ⟨slot, -, inst, hinst, -⟩ := (h.planted.accesses i).1 hi
    exact h.planted.not_added hinst
  have hslots : (p.accesses ++ p.slots.map (·.inst)).Nodup := by
    refine List.nodup_append.2 ⟨h.planted.distinct, h.planted.apart, ?_⟩
    rintro i hi _ hj rfl
    obtain ⟨slot, hs, hslot⟩ := List.mem_map.1 hj
    have halloca := (h.private_renamed hs).slot
    rw [hslot] at halloca
    obtain ⟨slot', -, hload | ⟨y, -, hstore⟩⟩ := h.access_forms hi
    · cases halloca.symm.trans hload
    · cases halloca.symm.trans hstore
  refine List.nodup_append.2 ⟨h.planted.added_nodup.filter _, hslots, ?_⟩
  rintro i hi _ hj rfl
  have hadded := (List.mem_filter.1 hi).1
  rcases List.mem_append.1 hj with hj | hj
  · exact hacc hj hadded
  · obtain ⟨slot, hs, rfl⟩ := List.mem_map.1 hj
    exact h.planted.not_added (h.planted.hidden hs).slot hadded

theorem idle_removed (hun : Unread p (· ∈ p.accesses) g) (hneeds : Needs (p.withFlow g) needed)
    (hsilent : p.Silent) :
    (p.withFlow g).func.Idle (p.removed needed) where
  body i hi := by
    obtain ⟨inst, hinst, hplain⟩ := h.plain_removed hi
    exact (DataFlow.isTerminator_of_inst hinst).trans hplain
  unused {i inst} hi hinst v hv j hj hr := by
    rw [State.mem_removed, not_or, not_or] at hi
    obtain ⟨hphi, hacc, -⟩ := hi
    rcases State.mem_removed.1 hj with ⟨hadded, hn⟩ | hjacc | ⟨slot, hs, rfl⟩
    · refine hn (hneeds.used hadded hr hinst hv (fun hi => ?_) hacc)
      exact Classical.byContradiction fun hin => hphi ⟨hi, hin⟩
    · obtain ⟨slot, hs, inst', hj', hm⟩ := (h.planted.accesses j).1 hjacc
      have hrp : p.flow.result? j = some v := (h.rewritten.rewired.result? j).symm.trans hr
      rcases (h.planted.hidden hs).uses hj' hm with rfl | ⟨y, -, rfl⟩
      · exact hun hjacc ⟨slot, hs, h.planted.inst?_old hj', hrp⟩ hinst hv
      · cases (hsilent slot hs j y (h.planted.inst?_old hj')).symm.trans hrp
    · cases (h.private_renamed hs).result.symm.trans hr
      exact hacc (h.mem_accesses.2 ⟨slot, hs, inst, hinst, hv⟩)

theorem apart_removed {args : List Datum} (hargs : Foreign args)
    (hf : (p.withFlow g).func.Orderly E entry) {s₀ : Frame}
    (hstart : Frame.start (p.withFlow g).func args = .ok s₀) :
    (p.withFlow g).func.Apart E s₀ (p.removed needed)
      fun cell => ∃ slot ∈ p.slots, cell = ⟨0, slot.inst⟩ where
  stores {s i rest x y cell} hr hrest hi hst hx := by
    have hs := hf.sits_reached (hf.sits_atStart (hf.atStart hstart)) hr
    obtain ⟨pre, hpre⟩ := hs.suffix
    rcases State.mem_removed.1 hi with ⟨hadded, -⟩ | hacc | ⟨slot, hslot, rfl⟩
    · obtain ⟨_, _, hphi⟩ := h.inst?_added_renamed hadded
      cases hphi.symm.trans hst
    · obtain ⟨slot, hslot, hload | ⟨y', -, hstore⟩⟩ := h.access_forms hacc
      · cases hload.symm.trans hst
      · cases hstore.symm.trans hst
        have hav : (p.withFlow g).func.Avail E entry s.block s.rest slot.address := by
          rw [hrest] at hpre ⊢
          exact hf.body hs.connects hpre hst rfl (by simp [Inst.args])
        have haddr := (h.private_renamed hslot).read_address hf (hf.atStart hstart) hr hav
        rw [hf.activation_eq hstart hr] at haddr
        cases haddr.symm.trans hx
        exact ⟨slot, hslot, rfl⟩
    · cases (h.private_renamed hslot).slot.symm.trans hst
  loads {s i rest x cell} hr hrest hi hld hx := by
    rintro ⟨slot, hslot, rfl⟩
    have hsits := hf.sits_atStart (hf.atStart hstart)
    have hsecret := Frame.Secret.reached (Frame.start_secret (a := slot.address) hstart hargs) hsits
      (h.private_renamed hslot) hf.toRegular hr
    rw [hf.activation_eq hstart hr] at hsecret
    have hxa := hsecret.read hx
    subst hxa
    exact hi (State.mem_removed.2
      (.inr (.inl (h.mem_accesses.2 ⟨slot, hslot, _, hld, by simp [Inst.args]⟩))))

end Filled

theorem prunePhis_ok {s : State} (hc : s.func.Coherent) (hn : s.added.Nodup)
    (hphi : ∀ i ∈ s.added, ∃ inst r, s.flow.inst? i = some inst ∧ inst.op.isTerminator = false ∧
      s.flow.result? i = some r) :
    s.prunePhis.Yields fun s' => ∃ needed b σ, Needs s needed ∧
      s' = { s with builder := b, added := s.added.filter (· ∈ needed) } ∧
      s.func.Culled b.func (s.added.filter (· ∉ needed)) σ := by
  obtain ⟨needed, hneeded, hneeds⟩ := neededPhis_ok hc fun i hi => by
    obtain ⟨inst, r, hinst, -, hr⟩ := hphi i hi
    exact ⟨inst, r, hinst, hr⟩
  unfold State.prunePhis
  refine (Run.yields_lift ⟨needed, hneeded, rfl⟩).bind ?_
  rintro _ rfl
  refine (Builder.deleteInsts_yields hc .trace "Prune useless " (hn.filter _) fun i hi => ?_).bind
    ?_
  · obtain ⟨inst, -, hinst, hplain, -⟩ := hphi i (List.mem_filter.1 hi).1
    exact ⟨inst, hinst, hplain⟩
  · rintro b ⟨σ, hcut⟩
    exact Run.yields_pure ⟨needed, b, σ, hneeds, rfl, hcut⟩

theorem removeSlots_ok {s : State} (hc : s.func.Coherent)
    (hn : (s.accesses ++ s.slots.map (·.inst)).Nodup)
    (hplain : ∀ i ∈ s.accesses ++ s.slots.map (·.inst), ∃ inst, s.flow.inst? i = some inst ∧
      inst.op.isTerminator = false) :
    s.removeSlots.Yields fun b => ∃ σ, s.func.Culled b.func
      (s.accesses ++ s.slots.map (·.inst)) σ := by
  obtain ⟨hnacc, hnslots, hapart⟩ := List.nodup_append.1 hn
  unfold State.removeSlots
  refine (Builder.deleteInsts_yields hc .trace "Remove " hnacc fun i hi =>
    hplain i (List.mem_append_left _ hi)).bind ?_
  rintro b ⟨σ, hcut⟩
  have hout : ∀ i ∈ s.slots.map (·.inst), i ∉ s.accesses := fun i hi hacc => hapart i hacc i hi rfl
  have hdelete := Builder.deleteInsts_yields hcut.coherent .debug "Remove " hnslots fun i hi => by
    obtain ⟨inst, hinst, hterm⟩ := hplain i (List.mem_append_right _ hi)
    refine ⟨inst.mapArgs σ, ?_, (congrArg _ (Inst.op_mapArgs ..)).trans hterm⟩
    have hb := hcut.inst? i
    rw [if_neg (hout i hi), show s.builder.func.flow.inst? i = _ from hinst] at hb
    exact hb
  rw [List.foldlM_map] at hdelete
  refine hdelete.mono ?_
  rintro c ⟨σ', hcut'⟩
  exact ⟨_, hcut.trans hout hcut'⟩

/-- What is left once slots and phis are gone. -/
structure Filled.Removed (p : State) (g : DataFlow) (needed : List InstId) (b : Builder) :
    Prop where
  needs : Needs (p.withFlow g) needed
  coherent : b.func.Coherent
  thinned : (p.withFlow g).func.Thinned b.func (p.removed needed)
  idle : (p.withFlow g).func.Idle (p.removed needed)

theorem Filled.removed_ok (h : Filled f entry t p g base τ fill) (hun : Unread p (· ∈ p.accesses) g)
    (hsilent : p.Silent) :
    (p.withFlow g).prunePhis.Yields fun s => s.removeSlots.Yields fun b => ∃ needed,
      s.added = p.added.filter (· ∈ needed) ∧ Filled.Removed p g needed b := by
  have hc := h.rewritten.coherent h.planted
  refine (prunePhis_ok hc h.planted.added_nodup fun i hi => ?_).mono ?_
  · obtain ⟨args, preds, hinst⟩ := h.inst?_added_renamed hi
    obtain ⟨c, slot, hp⟩ := h.planted.mem_added.1 hi
    obtain ⟨-, -, r, hr, -⟩ := h.planted.phi hp
    exact ⟨_, r, hinst, rfl, (h.rewritten.rewired.result? i).trans hr⟩
  · rintro s ⟨needed, b, σ, hneeds, rfl, hcut⟩
    obtain ⟨-, hn, hapart⟩ := List.nodup_append.1 (h.removed_nodup : (p.removed needed).Nodup)
    have hout : ∀ i ∈ p.accesses ++ p.slots.map (·.inst), i ∉ p.added.filter (· ∉ needed) :=
      fun i hi hgone => hapart i hgone i hi rfl
    refine (removeSlots_ok
      (s := { p.withFlow g with builder := b, added := p.added.filter (· ∈ needed) }) hcut.coherent
      hn fun i hi => ?_).mono ?_
    · have hgone : i ∈ p.removed needed := List.mem_append_right _ hi
      obtain ⟨inst, hinst, hplain⟩ := h.plain_removed hgone
      refine ⟨inst.mapArgs σ, ?_, (congrArg _ (Inst.op_mapArgs ..)).trans hplain⟩
      exact (hcut.inst? i).trans ((if_neg (hout i hi)).trans (congrArg (Option.map _) hinst))
    · rintro c ⟨σ', hcut'⟩
      have hidle := h.idle_removed hun hneeds hsilent
      have hboth : (p.withFlow g).func.Culled c.func (p.removed needed) (σ' ∘ σ) :=
        hcut.trans hout hcut'
      exact ⟨needed, rfl, hneeds, hboth.coherent, hboth.thinned hidle.unused, hidle⟩

namespace Filled.Removed

variable {b : Builder} (hr : Removed p g needed b) (h : Filled f entry t p g base τ fill)
include hr h

theorem regular : b.func.Regular entry := h.regular_renamed.thin hr.thinned hr.idle hr.coherent

theorem typed : b.func.Typed :=
  hr.thinned.types hr.idle (h.rewritten.coherent h.planted) h.typed_renamed

theorem leads : b.func.Leads = f.Leads :=
  (hr.thinned.leads_eq hr.idle h.regular_renamed.shape).trans
    ((h.rewritten.leads_eq h.planted).trans h.planted.leads_eq)

theorem orderly (hf : f.Orderly E entry) : b.func.Orderly E entry :=
  (h.orderly_renamed hf).thin hr.thinned hr.idle hr.coherent

theorem serves {args : List Datum} {d : Datum} (hargs : Foreign args)
    (hs : f.Serves E entry args d) :
    b.func.Serves E entry args d :=
  (h.serves hargs hs).thin hr.thinned hr.idle hr.coherent fun hstart =>
    h.apart_removed hargs (h.orderly_renamed hs.1) hstart

end Filled.Removed

end Promotion

end MiddleEnd
