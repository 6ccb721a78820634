import MiddleEnd.Proofs.Building
import MiddleEnd.Proofs.SettledNumbers
import MiddleEnd.Proofs.ValueNumbering

/-!
# Rounds of value numbering

After a walk the redundant results give way to their numbers, and the instructions that yield them
are removed. One round after the other leaves a function that returns whatever the function
returned.
-/

namespace MiddleEnd

namespace ValueNumbering

variable {f : Func} {entry : BlockId} {s : State}

theorem Sound.root_not_redundant (h : Sound f entry s) {v : ValueId}
    (hv : s.numbers.get? v = none) {i : InstId} (hi : i ∈ s.redundant) :
    f.flow.result? i ≠ some v := by
  intro hr
  obtain ⟨w, n, -, hw, hn, -⟩ := h.redundant i hi
  rw [hr] at hw
  cases hw
  rw [hv] at hn
  cases hn

/-- The redundant results among the first instructions have given way to their numbers. -/
structure Replaced (f : Func) (entry : BlockId) (s : State) (done : List InstId) (c : Builder) :
    Prop where
  func : c.func = { f with flow := c.flow }
  restated : f.Restated entry c.flow
  rewired : ∃ ρ, DataFlow.Rewired s.flow c.flow ρ
  unused : ∀ i ∈ done, ∀ v, f.flow.result? i = some v →
    ∀ j jnst, c.flow.inst? j = some jnst → v ∉ jnst.args

theorem Replaced.step (hf : f.Coherent) (hs : Sound f entry s) {done : List InstId} {c : Builder}
    (h : Replaced f entry s done c) (hdone : ∀ i ∈ done, i ∈ s.redundant) {i : InstId} {r : ValueId}
    (hi : i ∈ s.redundant) (hr : f.flow.result? i = some r) :
    ∃ c', c.replaceUse r (s.number r) = .ok c' ∧ Replaced f entry s (done ++ [i]) c' := by
  obtain ⟨σ, hσ⟩ := h.rewired
  obtain ⟨ty, ho, -⟩ := hf.flow.result_origin hr
  have hequal := hs.number_equal (hs.restated.origin? ho)
  obtain ⟨o, hn⟩ := hequal.known
  have hcoh : c.func.Coherent := by
    rw [h.func]
    exact h.restated.coherent hf
  obtain ⟨g, hg, hcoh', hR⟩ := Builder.replaceUse_ok hcoh (h.restated.origin? ho) (hσ.origin? hn)
  have hne : r ≠ s.number r := by
    intro he
    have hroot := hs.number_root r
    rw [← he] at hroot
    exact hs.root_not_redundant hroot hi hr
  refine ⟨c.withFlow g, hg, ⟨?_, ?_, ⟨_, hσ.trans hR⟩, ?_⟩⟩
  · show { c.func with flow := g } = { f with flow := g }
    rw [h.func]
  · refine h.restated.step hcoh'.flow hR fun {j jnst} hj => .of_mapArgs fun v hv => ?_
    obtain ⟨o', ho'⟩ := h.restated.exact.operand hj hv
    by_cases hvr : v = r
    · subst hvr
      rw [DataFlow.swap, if_pos rfl]
      exact (hequal.extend hσ).extend hR
    · rw [DataFlow.swap_of_ne hvr]
      exact .refl (hR.origin? ho')
  · intro k hk v hv j jnst' hj hmem
    obtain ⟨jnst, hj', rfl⟩ := hR.exists_inst hj
    rw [Inst.args_mapArgs] at hmem
    obtain ⟨w, hw, rfl⟩ := List.mem_map.1 hmem
    by_cases hwr : w = r
    · -- The number is a root, so it is no redundant result.
      rw [DataFlow.swap, if_pos hwr] at hv
      have hk' : k ∈ s.redundant := by
        rcases List.mem_append.1 hk with hk | hk
        · exact hdone k hk
        · rw [List.mem_singleton.1 hk]
          exact hi
      exact hs.root_not_redundant (hs.number_root r) hk' hv
    · rw [DataFlow.swap_of_ne hwr] at hv
      rcases List.mem_append.1 hk with hk | hk
      · exact h.unused k hk w hv j jnst hj' hw
      · rw [List.mem_singleton.1 hk, hr] at hv
        exact hwr (Option.some.inj hv).symm

theorem replaceAll_spec (hf : f.Coherent) (hs : Sound f entry s) :
    ∃ c : Builder, s.redundant.foldlM (fun (b : Builder) i => do
        let result ← b.flow.result i
        b.replaceUse result (s.number result)) s.builder = .ok c ∧
        Replaced f entry s s.redundant c := by
  refine foldlM_yields (Replaced f entry s) ⟨hs.func, hs.restated, ⟨_, .refl _⟩, by simp⟩ ?_
  intro done i post c he h
  have hmem : ∀ {j}, j ∈ done ∨ j = i → j ∈ s.redundant := by
    intro j hj
    rw [he]
    rcases hj with hj | rfl
    · exact List.mem_append_left _ hj
    · exact List.mem_append_right _ List.mem_cons_self
  obtain ⟨r, -, -, hr, -⟩ := hs.redundant i (hmem (.inr rfl))
  obtain ⟨c', hc', h'⟩ := h.step hf hs (fun j hj => hmem (.inl hj)) (hmem (.inr rfl)) hr
  refine ⟨c', ?_, h'⟩
  rw [DataFlow.result_eq_ok.2 ((h.restated.result? i).trans hr), ok_bind]
  exact hc'

theorem finish_spec (hf : f.Regular entry) (hs : Sound f entry s) :
    ∃ g c, s.finish = .ok c ∧ f.Restated entry g ∧ c.func.Coherent ∧
      ({ f with flow := g } : Func).Thinned c.func s.redundant ∧
      ({ f with flow := g } : Func).Idle s.redundant ∧
      c.flow.insts.size + s.redundant.length = f.flow.insts.size := by
  obtain ⟨c, hc, h⟩ := replaceAll_spec hf.coherent hs
  have hcoh : c.func.Coherent := by
    rw [h.func]
    exact h.restated.coherent hf.coherent
  have hresult : ∀ {i v}, c.flow.result? i = some v → f.flow.result? i = some v := fun hv => by
    rw [← h.restated.result?]
    exact hv
  have hinst : ∀ i ∈ s.redundant, ∃ inst, c.flow.inst? i = some inst := by
    intro i hi
    obtain ⟨-, -, inst, -, -, hinst, -⟩ := hs.redundant i hi
    obtain ⟨inst', hinst', -⟩ := h.restated.inst_ok hinst
    exact ⟨inst', hinst'⟩
  obtain ⟨c', hc', hcoh', ht, hsize⟩ :=
    Builder.removeInsts_ok hcoh hs.nodup hinst fun {pre i post} he v hv j jnst _ hj =>
      h.unused i (by rw [he]; exact List.mem_append_right _ List.mem_cons_self) v
        (hresult hv) j jnst hj
  refine ⟨c.flow, c', ?_, h.restated, hcoh', ?_, ⟨?_, ?_⟩, ?_⟩
  · unfold State.finish
    rw [hc, ok_bind]
    exact hc'
  · rw [← h.func]
    exact ht
  · intro i hi
    obtain ⟨-, -, inst, -, -, hinst, hop⟩ := hs.redundant i hi
    obtain ⟨inst', hinst', hm⟩ := h.restated.inst_ok hinst
    show c.flow.isTerminator i = false
    rw [DataFlow.isTerminator_of_inst hinst', hm.op_eq]
    revert hop
    cases inst.op <;> decide
  · intro j jnst _ hj v hv i hi hiv
    exact h.unused i hi v (hresult hiv) j jnst hj hv
  · obtain ⟨σ, hσ, -⟩ := h.restated.rewired
    rw [← hσ.size]
    exact hsize

/-- What a round starts from and leaves. -/
structure Ready (f : Func) (entry : BlockId) : Prop where
  regular : f.Regular entry
  typed : f.Typed
  dominated : f.Dominated entry
  wide : ∀ i, f.yieldTy i ≠ .int 0

theorem PhisYield.thin {f' : Func} {D : List InstId} (h : PhisYield f entry entry)
    (hf : f.Regular entry) (ht : f.Thinned f' D) (hd : f.Idle D) : PhisYield f' entry entry := by
  have hleads := ht.leads_eq hd hf.shape
  intro home phis' hg hphis' i hi
  rw [hleads] at hg
  obtain ⟨xs', hxs', he⟩ := bind_eq_ok.1 hphis'
  cases he
  obtain ⟨xs, hxs, rfl⟩ := ht.insts_of hxs'
  have hisphi := List.all_eq_true.1 List.all_takeWhile i hi
  obtain ⟨hix, hiD⟩ := List.mem_filter.1 ((List.takeWhile_prefix _).subset hi)
  have hiD : i ∉ D := by simpa using hiD
  rw [ht.isPhi hiD] at hisphi
  have hphi : i ∈ xs.takeWhile f.flow.isPhi := hf.shape.mem_phis hxs hix hisphi
  rw [ht.result?, if_neg hiD]
  refine h hg ?_ i hphi
  unfold Func.phis
  rw [hxs]
  rfl

theorem PhisYield.restate {g : DataFlow} (h : PhisYield f entry entry) (hr : f.Restated entry g) :
    PhisYield { f with flow := g } entry entry := by
  have hleads : ({ f with flow := g } : Func).Leads = f.Leads := by
    funext a b
    exact propext hr.leads_iff
  have hphi : g.isPhi = f.flow.isPhi := funext hr.isPhi
  intro home phis hg hphis i hi
  rw [hleads] at hg
  show ∃ r, g.result? i = some r
  rw [hr.result?]
  refine h hg ?_ i hi
  rw [← hphis]
  unfold Func.phis
  rw [hphi]
  rfl

theorem round_spec (h : Ready f entry) (hs : Sound f entry s) :
    ∃ c, s.finish = .ok c ∧ Ready c.func entry ∧ f.Refines c.func entry ∧
      (PhisYield f entry entry → PhisYield c.func entry entry) ∧
      c.flow.insts.size + s.redundant.length = f.flow.insts.size := by
  obtain ⟨g, c, hc, hr, hcoh, ht, hd, hsize⟩ := finish_spec h.regular hs
  have hregular := hr.regular h.regular
  have hwide : ∀ i, c.func.yieldTy i ≠ .int 0 := by
    intro i
    by_cases hi : i ∈ s.redundant
    · unfold Func.yieldTy
      rw [ht.result?, if_pos hi]
      simp
    · rw [ht.yieldTy_eq hregular.coherent hi, hr.yieldTy_eq h.regular.coherent]
      exact h.wide i
  have hthin : ({ f with flow := g } : Func).Refines c.func entry := by
    intro E args d hserves
    refine hserves.thin ht hd hcoh (C := fun _ => False) fun _ =>
      Func.apart_of_noStores fun i hi x y hst => ?_
    obtain ⟨-, -, inst, -, -, hinst, hop⟩ := hs.redundant i hi
    obtain ⟨inst', hinst', hm⟩ := hr.inst_of hst
    rw [hinst] at hinst'
    cases hinst'
    rw [← hm.op_eq] at hop
    rcases hop with hop | hop <;> cases hop
  have hdominated := hr.fits.dominated h.regular.toFormed h.dominated
  exact ⟨c, hc, ⟨hregular.thin ht hd hcoh,
    ht.types hd hregular.coherent (hr.types h.regular h.typed),
    hdominated.thin hregular.shape hregular.coherent ht hd hcoh, hwide⟩,
    Func.Refines.trans hr.refines hthin, fun hy => (hy.restate hr).thin hregular ht hd, hsize⟩

theorem walk_decides {b : Builder} (h : Ready b.func entry) {t : DominatorTree}
    (ht : t.Faithful b.func entry) :
    (State.walk t (t.order.length + 1) [] { builder := b } entry).Decides
      (PhisYield b.func entry entry) fun s =>
      Sound b.func entry s := by
  have hnone : ∀ {v n}, ({ builder := b } : State).numbers.get? v ≠ some n := fun hn => by cases hn
  have hstart : Sound b.func entry { builder := b } :=
    ⟨rfl, .refl h.regular.coherent, fun v => ⟨0, v, Nat.zero_le _, .here rfl⟩,
      fun hn => absurd hn hnone,
      fun hn => absurd hn hnone, by simp, by simp⟩
  have hnothing : ∀ {xs}, b.func.insts entry = .ok xs →
      Offers b.func entry { builder := b } entry xs [] :=
    fun _ _ _ hm => by cases hm
  exact (walk_spec h.regular h.typed h.dominated h.wide ht ht.listing.head (by omega) hstart
    (by simp) hnothing).mono
    fun _ hs => hs.1

theorem round_ok {b : Builder} (h : Ready b.func entry) (hy : PhisYield b.func entry entry) :
    ∃ t s c, t.Faithful b.func entry ∧
      (State.walk t (t.order.length + 1) [] { builder := b } entry).outcome = .ok s ∧
      s.finish = .ok c ∧ Ready c.func entry ∧ b.func.Refines c.func entry ∧
      PhisYield c.func entry entry ∧ c.flow.insts.size + s.redundant.length = b.flow.insts.size ∧
      ∀ fuel m, (repeatWithin (fuel + 1) m b).outcome =
        if s.redundant.isEmpty then .ok (m, c) else (repeatWithin fuel true c).outcome := by
  obtain ⟨t, -, ht, hdom⟩ :=
    (Func.dominators_ok h.regular.starts h.regular.shape.closed
      h.regular.coherent.bound).outcome_bind
  obtain ⟨s, hwalk, hs, hnext⟩ := ((walk_decides h ht).yields hy).outcome_bind
  obtain ⟨c, hc, hready, hrefines, hyield, hsize⟩ := round_spec h hs
  refine ⟨t, s, c, ht, hwalk, hc, hready, hrefines, hyield hy, hsize, fun fuel m => ?_⟩
  rw [repeatWithin, hdom, ht.root_ok]
  refine (hnext _).trans ?_
  rw [hc]
  cases s.redundant.isEmpty <;> rfl

theorem round_fails {b : Builder} (h : Ready b.func entry) (hn : ¬ PhisYield b.func entry entry)
    (fuel : Nat) (m : Bool) :
    (repeatWithin (fuel + 1) m b).Fails := by
  unfold repeatWithin
  refine (Func.dominators_ok h.regular.starts h.regular.shape.closed
    h.regular.coherent.bound).bind_fails fun t ht => ?_
  refine (Run.yields_lift ⟨entry, ht.root_ok, rfl⟩).bind_fails ?_
  rintro _ rfl
  exact ((walk_decides h ht).fails hn).bind

/-- Another walk comes by nothing that it has come by before, so that the rounds are over. -/
structure Exhausted (b : Builder) (entry : BlockId) : Prop where
  ready : Ready b.func entry
  yields : PhisYield b.func entry entry
  walked : ∃ t : DominatorTree, t.Faithful b.func entry ∧ Walked b t [] entry
  again : ∀ fuel m, (repeatWithin (fuel + 1) m b).outcome = .ok (m, b)

theorem repeatWithin_ok {fuel : Nat} {modified : Bool} {b : Builder} (h : Ready b.func entry)
    (hy : PhisYield b.func entry entry) (hfuel : b.flow.insts.size < fuel) :
    ∃ m c, (repeatWithin fuel modified b).outcome = .ok (m, c) ∧ b.func.Refines c.func entry ∧
      Exhausted c entry := by
  induction fuel generalizing modified b with
  | zero => omega
  | succ fuel ih =>
    obtain ⟨t, s, c, ht, hwalk, hfinish, hready, hrefines, hyield, hsize, hnext⟩ := round_ok h hy
    rw [hnext]
    cases hred : s.redundant with
    | nil =>
      have hstart : State.Untouched b True { builder := b } := fun _ => ⟨rfl, trivial⟩
      obtain ⟨rfl, -, hwalked⟩ := (State.walk_untouched hstart).of_outcome hwalk hred
      obtain rfl : b = c := Except.ok.inj hfinish
      exact ⟨modified, b, rfl, hrefines, h, hy, ⟨t, ht, hwalked⟩, hnext⟩
    | cons i l =>
      rw [hred] at hsize
      have hsmall : c.flow.insts.size < fuel := by
        rw [List.length_cons] at hsize
        omega
      obtain ⟨m, d, hd, hrefines', hdone⟩ := ih hready hyield hsmall
      exact ⟨m, d, hd, hrefines.trans hrefines', hdone⟩

theorem phisYield_entry_iff (he : f.entry = .ok entry) :
    PhisYield f entry entry ↔ ∀ b phis, f.Reachable b → f.phis b = .ok phis →
    ∀ i ∈ phis, ∃ r, f.flow.result? i = some r := by
  constructor
  · intro h b phis hb hphis
    exact h ((Func.reachable_iff he).1 hb).guards_root hphis
  · intro h b phis hg hphis
    exact h b phis ((Func.reachable_iff he).2 hg.1) hphis

theorem Ready.of_clean {b : Builder} (h : b.func.Clean entry)
    (hwide : ∀ v, b.flow.ty v ≠ .ok (.int 0)) :
    Ready b.func entry :=
  ⟨h.regular, h.typed, h.valid.dominated, h.coherent.yieldTy_ne (by decide) hwide⟩

theorem run_eq {b : Builder} (hb : b.func.entry = .ok entry) :
    run b = Run.info (fun _ => .ok s!"GVN [{b.func.name}]") >>= fun _ => repeatWithin
      (b.flow.insts.size + 1) false b := by
  unfold run
  rw [Func.isEmpty_of_entry hb]
  rfl

theorem run_ok {b : Builder} (h : Ready b.func entry) (hy : PhisYield b.func entry entry) :
    ∃ m c, (run b).outcome = .ok (m, c) ∧ b.func.Refines c.func entry ∧ Exhausted c entry := by
  rw [run_eq h.regular.starts]
  unfold Run.info
  rw [Run.outcome_log_bind]
  exact repeatWithin_ok h hy (Nat.lt_succ_self _)

theorem run_fails {b : Builder} (h : Ready b.func entry) (hn : ¬ PhisYield b.func entry entry) :
    (run b).Fails := by
  rw [run_eq h.regular.starts]
  exact (Run.yields_log (P := fun _ => True) trivial).bind_fails fun _ _ => round_fails h hn _ _

/-- Value numbering of a clean function without integers of width 0 goes through and preserves what
the function returns exactly if every phi of a reachable block yields a value. -/
theorem run_preserves_iff {b : Builder} (h : b.func.Clean entry)
    (hwide : ∀ v, b.flow.ty v ≠ .ok (.int 0)) :
    (∃ modified b', (run b).outcome = .ok (modified, b') ∧
        ∀ args d, b.func.Returns args d → b'.func.Returns args d) ↔
      ∀ c phis, b.func.Reachable c → b.func.phis c = .ok phis →
        ∀ i ∈ phis, ∃ r, b.flow.result? i = some r := by
  have hready := Ready.of_clean h hwide
  refine Iff.trans ?_ (phisYield_entry_iff h.starts)
  constructor
  · rintro ⟨modified, b', hb', -⟩
    refine Classical.byContradiction fun hn => ?_
    obtain ⟨e, he⟩ := (run_fails hready hn).outcome
    rw [hb'] at he
    cases he
  · intro hy
    obtain ⟨modified, b', hb', hrefines, -⟩ := run_ok hready hy
    exact ⟨modified, b', hb', fun args d hd => h.returns hrefines hd⟩

/-- Two branches compute the same, and so does the block where they meet. -/
def sameTwice : Checked Builder :=
  Func.build "twice" ⟨[.int 1, .int 32], some (.int 32)⟩
    [.block (some "entry"), .block (some "then"), .block (some "else"), .block (some "join"),
      .goTo (.append ⟨0⟩), .insert (.binary .mul ⟨1⟩ ⟨1⟩) (.int 32),
      .insert (.branch .brCond ⟨0⟩ ⟨1⟩ ⟨2⟩) .void, .goTo (.append ⟨1⟩),
      .insert (.binary .mul ⟨1⟩ ⟨1⟩) (.int 32), .insert (.jump .br ⟨3⟩) .void, .goTo (.append ⟨2⟩),
      .insert (.binary .mul ⟨1⟩ ⟨1⟩) (.int 32), .insert (.jump .br ⟨3⟩) .void, .goTo (.append ⟨3⟩),
      .insert (.phi .phi [⟨3⟩, ⟨4⟩] [⟨1⟩, ⟨2⟩]) (.int 32), .insert (.unary .retValue ⟨5⟩) .void]

theorem sameTwice_ok :
    ∃ b entry, sameTwice = .ok b ∧ b.func.Clean entry ∧ (∀ v, b.flow.ty v ≠ .ok (.int 0)) ∧
    ∀ c phis, b.func.Reachable c → b.func.phis c = .ok phis →
      ∀ i ∈ phis, ∃ r, b.flow.result? i = some r := by
  obtain ⟨b, hb, h⟩ := exists_of_any (x := sameTwice) (p := fun b => b.func.isClean &&
    b.flow.values.toList.all (·.2.origin.ty ≠ .int 0) && b.func.phisYield) (by decide +kernel)
  rw [Bool.and_eq_true, Bool.and_eq_true] at h
  obtain ⟨entry, hc⟩ := Func.clean_of_isClean (Func.build_coherent (by decide) hb) h.1.1
  exact ⟨b, entry, hb, hc, ty_ne_of_all h.1.2, fun c phis _ hp => Func.result_of_phisYield h.2 hp⟩

theorem sameTwice_preserved :
    ∃ b modified b', sameTwice = .ok b ∧ (run b).outcome = .ok (modified, b') ∧
    ∀ args d, b.func.Returns args d → b'.func.Returns args d := by
  obtain ⟨b, entry, hb, hclean, hwide, hphis⟩ := sameTwice_ok
  obtain ⟨modified, b', hrun, hkeep⟩ := (run_preserves_iff hclean hwide).2 hphis
  exact ⟨b, modified, b', hb, hrun, hkeep⟩

/-- A phi of type `void` stands in a block that control does not come to. -/
def voidPhi : Checked Builder :=
  Func.build "f" ⟨[], some (.int 32)⟩
    [.block (some "entry"), .block (some "other"), .block (some "exit"),
    .const (.ofBool true), .undef .void,
      .const (.int32 7),
      .goTo (.append ⟨0⟩), .insert (.branch .brCond ⟨0⟩ ⟨2⟩ ⟨1⟩) .void,
      .goTo (.append ⟨1⟩), .insert (.phi .phi [⟨1⟩] [⟨0⟩]) .void, .insert (.jump .br ⟨2⟩) .void,
      .goTo (.append ⟨2⟩), .insert (.unary .retValue ⟨2⟩) .void]

theorem voidPhi_ok : ∃ b entry, voidPhi = .ok b ∧ b.func.Clean entry ∧
    b.func.predecessors entry = [] ∧ (∀ v, b.flow.ty v ≠ .ok (.int 0)) ∧ b.func.result?
      [] 3 = some (.word ⟨32, 7, by decide, by decide⟩) ∧
    (run b).outcome.toOption = none := by
  obtain ⟨b, hb, h⟩ := exists_of_any (x := voidPhi) (p := fun b => b.func.isClean &&
    (b.func.entry.toOption.any fun entry => (b.func.predecessors entry).isEmpty) &&
    b.flow.values.toList.all (·.2.origin.ty ≠ .int 0) && b.func.result? [] 3 =
    some (.word ⟨32, 7, by decide, by decide⟩) && (run b).outcome.toOption.isNone)
    (by decide +kernel)
  simp only [Bool.and_eq_true] at h
  obtain ⟨⟨⟨⟨hclean, hpreds⟩, hwide⟩, hret⟩, hrun⟩ := h
  obtain ⟨entry, hc, hpreds⟩ :=
    Func.clean_of_sourced (Func.build_coherent (by decide) hb) hclean hpreds
  exact ⟨b, entry, hb, hc, hpreds, ty_ne_of_all hwide, of_decide_eq_true hret,
    Option.isNone_iff_eq_none.1 hrun⟩

/-- The function returns, but value numbering ends in a fault. -/
theorem voidPhi_not_preserved :
    ∃ b entry e, voidPhi = .ok b ∧ b.func.Clean entry ∧ b.func.predecessors entry = [] ∧
      (∀ v, b.flow.ty v ≠ .ok (.int 0)) ∧ b.func.Returns [] (.word ⟨32, 7, by decide, by decide⟩) ∧
    (run b).outcome = .error e := by
  obtain ⟨b, entry, hb, hclean, hpreds, hwide, hret, hrun⟩ := voidPhi_ok
  cases ho : (run b).outcome with
  | ok r =>
    rw [ho] at hrun
    cases hrun
  | error e => exact ⟨b, entry, e, hb, hclean, hpreds, hwide, Func.returns_of_result? hret, ho⟩

end ValueNumbering

end MiddleEnd
