import MiddleEnd.Proofs.Culling
import MiddleEnd.Proofs.DeadCode
import MiddleEnd.Proofs.Restatement

/-!
# Live code

The aggressive removal marks what instructions with side effects depend on and deletes the rest,
cycles included. An instruction may be deleted while others still use its result; these use `undef`
from then on. They are to be deleted as well: a live instruction never gets to see the `undef`.
-/

namespace MiddleEnd

open Search

namespace LiveCode

variable {f : Func} {b : Builder} {i : InstId}

def producers (f : Func) (i : InstId) : Checked (List InstId) := do
  f.flow.definers (← f.flow.inst i).args

theorem producers_ok (hc : f.Coherent) {inst : Inst} (hi : f.flow.inst? i = some inst) :
    ∃ js, producers f i = .ok js ∧ ∀ j, j ∈ js ↔ f.Feeds j i := by
  obtain ⟨js, hjs, -, hfeeds⟩ := hc.definers_ok hi
  exact ⟨js, by rw [producers, DataFlow.inst_eq_ok.2 hi, ok_bind, hjs], hfeeds⟩

theorem edge_iff (hc : f.Coherent) {j : InstId} : Edge (producers f) i j ↔ f.Feeds j i := by
  constructor
  · rintro ⟨js, hjs, hj⟩
    obtain ⟨inst, hi, -⟩ := bind_eq_ok.1 hjs
    obtain ⟨js', hjs', hfeeds⟩ := producers_ok hc (DataFlow.inst_eq_ok.1 hi)
    cases hjs.symm.trans hjs'
    exact (hfeeds j).1 hj
  · intro hj
    obtain ⟨inst, hi⟩ : ∃ inst, f.flow.inst? i = some inst := by
      obtain ⟨_, inst, -, hi, -⟩ := hj
      exact ⟨inst, hi⟩
    obtain ⟨js, hjs, hfeeds⟩ := producers_ok hc hi
    exact ⟨js, hjs, (hfeeds j).2 hj⟩

theorem producers_within (hc : f.Coherent) : Within (producers f) f.flow.insts.keys := by
  intro i hi
  obtain ⟨inst, hi⟩ := DataFlow.mem_keys.1 hi
  obtain ⟨js, hjs, hfeeds⟩ := producers_ok hc hi
  exact ⟨js, hjs, fun j hj => DataFlow.mem_keys.2 ((hfeeds j).1 hj).inst⟩

theorem mem_effects (hc : f.Coherent) : i ∈ f.allInsts.filter f.flow.hasSideEffects ↔
    ∃ inst, f.flow.inst? i = some inst ∧ inst.op.hasSideEffects = true := by
  rw [List.mem_filter, show i ∈ f.allInsts ↔ _ from hc.placed i,
    DataFlow.hasSideEffects, DataFlow.op?]
  cases f.flow.inst? i with
  | none => simp
  | some inst => simp

theorem live_iff_walk (hc : f.Coherent) :
    f.Live i ↔ ∃ r ∈ f.allInsts.filter f.flow.hasSideEffects, ∃ p, Walk
      (Edge (producers f)) r i p := by
  constructor
  · intro hlive
    induction hlive with
    | @effect i inst hi he => exact ⟨i, (mem_effects hc).2 ⟨inst, hi, he⟩, [i], .single i⟩
    | @feeds i j h _ ih =>
      obtain ⟨r, hr, p, hp⟩ := ih
      exact ⟨r, hr, _, hp.snoc ((edge_iff hc).2 h)⟩
  · rintro ⟨r, hr, p, hp⟩
    obtain ⟨inst, hi, he⟩ := (mem_effects hc).1 hr
    have hstart : f.Live r := .effect hi he
    clear hr hi
    induction hp with
    | single => exact hstart
    | cons e _ ih => exact ih (.feeds ((edge_iff hc).1 e) hstart)

theorem live_ok (hc : f.Coherent) : ∃ xs, live f = .ok xs ∧ ∀ i, i ∈ xs ↔ f.Live i := by
  have hdepth : f.flow.insts.keys.length ≤ f.flow.insts.size + 1 := by
    rw [Table.keys, List.length_map]
    exact Nat.le_succ _
  have hroots : ∀ r ∈ f.allInsts.filter f.flow.hasSideEffects, r ∈ f.flow.insts.keys := by
    intro r hr
    obtain ⟨inst, hi, -⟩ := (mem_effects hc).1 hr
    exact DataFlow.mem_keys.2 ⟨inst, hi⟩
  obtain ⟨xs, hxs, hmem⟩ :=
    reach_ok [] _ (producers_within hc) hdepth (fun _ hx => absurd hx List.not_mem_nil) hroots
  refine ⟨xs, hxs, fun i => (hmem i).trans ((live_iff_walk hc).trans ?_).symm⟩
  simp only [List.not_mem_nil, false_or, not_false_eq_true, implies_true, and_true]

theorem unused_of_dead {D : List InstId}
    (hD : ∀ i, i ∈ D ↔ (∃ inst, f.flow.inst? i = some inst) ∧ ¬ f.Live i) {inst : Inst} (hi : i ∉ D)
    (hinst : f.flow.inst? i = some inst) :
    ∀ v ∈ inst.args, ∀ j ∈ D, f.flow.result? j ≠ some v := by
  intro v hv j hj hr
  have hlive : f.Live i := Classical.byContradiction fun hn => hi ((hD i).2 ⟨⟨inst, hinst⟩, hn⟩)
  exact ((hD j).1 hj).2 (.feeds ⟨v, inst, hr, hinst, hv⟩ hlive)

/-- On a coherent function the pass ends without a fault, whoever listens as long as calls are to
known functions. Just the live instructions stay, as they are and where they are; the flag tells
whether any went. Whatever the plain removal takes out goes as well, and a function without errors
still has none. -/
theorem run_keeps_live (hc : b.func.Coherent) :
    (run b).Succeeds b.func.CalleesKnown fun r =>
      (b.func.Shed r.2.func fun i => (∃ inst, b.flow.inst? i = some inst) ∧ ¬ b.func.Live i) ∧
      (∀ i, r.2.flow.hasInst i = true ↔ b.func.Live i) ∧ r.2.func.Coherent ∧
      (r.1 = true ↔ ∃ i, b.flow.hasInst i = true ∧ ¬ b.func.Live i) ∧
      ((DeadCode.run b).Succeeds b.func.CalleesKnown fun plain =>
        ∀ i, r.2.flow.hasInst i = true → plain.2.flow.hasInst i = true) ∧
      (b.func.errors = .ok [] → r.2.func.errors = .ok []) := by
  obtain ⟨xs, hxs, hlive⟩ := live_ok hc
  have hmem : ∀ i, i ∈ b.func.allInsts.filter (· ∉ xs) ↔ (∃ inst, b.flow.inst? i = some inst) ∧
      ¬ b.func.Live i := by
    intro i
    rw [List.mem_filter, show i ∈ b.func.allInsts ↔ _ from hc.placed i, decide_eq_true_iff, hlive]
    rfl
  unfold run
  refine (Run.succeeds_log fun _ => ⟨_, rfl⟩).bind fun _ _ => ?_
  refine (Run.succeeds_lift (P := (· = xs)) ⟨xs, hxs, rfl⟩).bind ?_
  rintro _ rfl
  refine (Run.succeeds_log fun _ => ⟨_, rfl⟩).bind fun _ _ => ?_
  refine (Builder.deleteInsts_succeeds hc .debug "Remove dead " (hc.layout.allInsts_nodup.filter _)
    fun i hi => ?_).bind ?_
  · obtain ⟨⟨inst, hinst⟩, hdead⟩ := (hmem i).1 hi
    have hterm := (Func.effectless_of_not_live hinst hdead).isTerminator
    exact ⟨inst, hinst, (DataFlow.isTerminator_of_inst hinst).symm.trans hterm⟩
  rintro c ⟨τ, hcut⟩
  have ht := hcut.thinned fun hi hinst => unused_of_dead hmem hi hinst
  have hkept : ∀ i, c.flow.hasInst i = true ↔ b.func.Live i := by
    intro i
    rw [DataFlow.hasInst_iff]
    constructor
    · rintro ⟨inst, hi⟩
      obtain ⟨hn, hinst⟩ := ht.inst_of hi
      exact Classical.byContradiction fun hdead => hn ((hmem i).2 ⟨⟨inst, hinst⟩, hdead⟩)
    · intro hi
      obtain ⟨inst, hinst⟩ := hi.inst
      exact ⟨inst, (ht.inst? i).trans ((if_neg fun hD => ((hmem i).1 hD).2 hi).trans hinst)⟩
  refine Run.succeeds_pure ⟨⟨_, ht, hmem⟩, hkept, hcut.coherent, ?_, ?_, fun hverified => ?_⟩
  · rw [Bool.not_eq_true', List.isEmpty_eq_false_iff]
    constructor
    · intro hne
      obtain ⟨i, hi⟩ := List.exists_mem_of_ne_nil _ hne
      exact ⟨i, DataFlow.hasInst_iff.2 ((hmem i).1 hi).1, ((hmem i).1 hi).2⟩
    · rintro ⟨i, hi, hdead⟩
      exact List.ne_nil_of_mem ((hmem i).2 ⟨DataFlow.hasInst_iff.1 hi, hdead⟩)
  · refine (DeadCode.run_ok hc).mono fun plain hplain i hi => ?_
    obtain ⟨D, hs, -⟩ := hplain.swept
    obtain ⟨inst, hinst⟩ := ((hkept i).1 hi).inst
    have hn : i ∉ D := fun hD => (hs.dead i hD).not_live ((hkept i).1 hi)
    exact DataFlow.hasInst_iff.2 ⟨inst, (hs.thinned.inst? i).trans ((if_neg hn).trans hinst)⟩
  · obtain ⟨entry, hvalid⟩ := (Func.errors_eq_nil_iff hc).1 hverified
    refine (Func.errors_eq_nil_iff hcut.coherent).2 ⟨entry,
      hvalid.thin hc ht ⟨fun i hi => ?_, ?_⟩ hcut.coherent⟩
    · obtain ⟨⟨inst, hinst⟩, hdead⟩ := (hmem i).1 hi
      exact (Func.effectless_of_not_live hinst hdead).isTerminator
    · exact fun hi hinst => unused_of_dead hmem hi hinst

theorem tangle_keeps_live : ∃ b r, DeadCode.tangle = .ok b ∧ (run b).outcome = .ok r ∧ r.1 = true ∧
    r.2.func.allInsts.map (·.index) = [3, 6, 7] ∧ (∀ i, r.2.flow.hasInst i = true ↔ b.func.Live i) ∧
    b.func.errors = .ok [] ∧ r.2.func.errors = .ok [] := by
  obtain ⟨b, hb, h⟩ := exists_of_any (x := DeadCode.tangle) (p := fun b =>
    (run b).outcome.toOption.any fun r =>
    r.1 && r.2.func.allInsts.map (·.index) == [3, 6, 7] && b.func.errors.toOption.any (·.isEmpty))
      (by decide +kernel)
  obtain ⟨r, hr, hkept⟩ := exists_of_any h
  simp only [Bool.and_eq_true, beq_iff_eq] at hkept
  obtain ⟨⟨hmodified, hinsts⟩, hclean⟩ := hkept
  obtain ⟨errors, herrors, hnone⟩ := exists_of_any hclean
  rw [List.isEmpty_iff.1 hnone] at herrors
  obtain ⟨r', hr', -, hlive, -, -, -, hverified⟩ :=
    (run_keeps_live (Func.build_coherent (by decide) hb)).outcome
  cases hr.symm.trans hr'
  exact ⟨b, r, hb, hr, hmodified, hinsts, hlive, herrors, hverified herrors⟩

end LiveCode

end MiddleEnd
