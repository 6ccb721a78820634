import MiddleEnd.Pass
import MiddleEnd.Proofs.Outcome
import MiddleEnd.Proofs.Revisions

/-!
# What passes are made of

A pass does nothing that could not be done with a builder, and it calls nothing new. So whatever the
operations of a builder keep holds after any passes, whatever they find in the function and whoever
listens.
-/

namespace MiddleEnd

open Builder (Revised)

namespace TrivialPhi

theorem substitute?_revises {start b : Builder} (h : Revised start b) {result : ValueId}
    {args : List ValueId} {s? : Option (ValueId × DataFlow)}
    (hs : substitute? b.flow result args = .ok s?) :
    ∀ s, s? = some s → Revised start (b.withFlow s.2) := by
  unfold substitute? at hs
  split at hs
  · obtain ⟨ty, -, hs⟩ := bind_eq_ok.1 hs
    cases hs
    intro s he
    cases he
    exact h.undef ty
  · cases hs
    intro s he
    cases he
    exact h
  · cases hs
    nofun

theorem removeFrom_revises {start : Builder} {fuel count : Nat} {work : List InstId} {b : Builder}
    (h : Revised start b) : (removeFrom fuel count work b).Ensures fun r => Revised start r.2 := by
  induction fuel generalizing count work b with
  | zero =>
    cases work with
    | nil => exact Run.ensures_pure h
    | cons phi rest => exact Run.ensures_throw _
  | succ fuel ih =>
    cases work with
    | nil => exact Run.ensures_pure h
    | cons phi rest =>
      rw [removeFrom]
      split
      · exact ih h
      refine Run.ensures_after fun result => Run.ensures_after fun inst => ?_
      refine (Run.ensures_lift fun s? hs => substitute?_revises h hs).bind fun s? hs => ?_
      cases s? with
      | none => exact ih h
      | some s =>
        refine Run.ensures_after fun _ => Run.ensures_after fun _ => ?_
        refine (Run.ensures_lift fun c hc => (hs s rfl).replaceUse hc).bind fun c hc => ?_
        exact (Run.ensures_lift fun d hd => hc.remove hd).bind fun d hd => ih hd

end TrivialPhi

theorem Builder.removeTrivialPhis_revises {start b : Builder} (h : Revised start b)
    (phis : List InstId) :
    (b.removeTrivialPhis phis).Ensures fun r => Revised start r.2 :=
  TrivialPhi.removeFrom_revises h

namespace DeadCode

theorem removeFrom_revises {start : Builder} {fuel : Nat} {modified : Bool}
    {work : List InstId} {b : Builder} (h : Revised start b) :
    (removeFrom fuel modified work b).Ensures fun r => Revised start r.2 := by
  induction fuel generalizing modified work b with
  | zero =>
    cases work with
    | nil => exact Run.ensures_pure h
    | cons i rest => exact Run.ensures_throw _
  | succ fuel ih =>
    cases work with
    | nil => exact Run.ensures_pure h
    | cons i rest =>
      rw [removeFrom]
      split
      · exact ih h
      refine Run.ensures_after fun dead => ?_
      split
      · exact ih h
      refine Run.ensures_after fun _ => Run.ensures_after fun _ => Run.ensures_after fun _ => ?_
      exact (Run.ensures_lift fun c hc => h.remove hc).bind fun c hc => ih hc

theorem run_revises (b : Builder) : (run b).Ensures fun r => Revised b r.2 :=
  Run.ensures_after fun _ => removeFrom_revises .refl

end DeadCode

theorem LiveCode.run_revises (b : Builder) : (run b).Ensures fun r => Revised b r.2 := by
  refine Run.ensures_after fun _ => Run.ensures_after fun live => Run.ensures_after fun _ => ?_
  refine Run.Ensures.bind (P := Revised b) ?_ fun c hc => Run.ensures_pure hc
  refine Run.ensures_foldlM (Revised b) .refl fun c i _ hc => Run.ensures_after fun _ => ?_
  exact Run.ensures_lift fun d hd => hc.delete hd

namespace Preheaders

variable {start b c : Builder}

theorem splitPhi_revises (h : Revised start b) {preheader : BlockId} {outside : List BlockId}
    {phi : InstId} (hc : splitPhi preheader outside b phi = .ok c) : Revised start c := by
  obtain ⟨inst, -, hc⟩ := bind_eq_ok.1 hc
  obtain ⟨⟨first, _⟩, -, hc⟩ := bind_eq_ok.1 hc
  -- where the merged value comes from makes no difference to the phi
  have hrest : ∀ {d : Builder} {merged : ValueId} {edges : List (ValueId × BlockId)}
      {step : DataFlow → ValueId × BlockId → Checked DataFlow},
      (∀ g e, step g e = do return (← g.removeIncoming phi e.2).2) → Revised start d → (do
        let flow ← edges.foldlM step d.flow
        return d.withFlow (← flow.addIncoming phi merged preheader)) = Except.ok c →
          Revised start c := by
    intro d merged edges step hstep hd hc
    obtain ⟨g, hg, hc⟩ := bind_eq_ok.1 hc
    obtain ⟨g', hg', hc⟩ := bind_eq_ok.1 hc
    cases hc
    have hremoved : Revised start (d.withFlow g) := by
      refine foldlM_ok_induct (fun _ g => Revised start (d.withFlow g)) hg hd ?_
      intro _ e _ g₁ g₂ _ hg₁ he
      rw [hstep] at he
      obtain ⟨n, he⟩ := snd_eq_ok.1 he
      exact hg₁.removeIncoming he
    exact hremoved.edit (.addIncoming phi merged preheader) rfl hg'
  dsimp only at hc
  split at hc
  · exact hrest (fun _ _ => rfl) h hc
  · obtain ⟨ty, -, hc⟩ := bind_eq_ok.1 hc
    obtain ⟨⟨merged, d⟩, hd, hc⟩ := bind_eq_ok.1 hc
    exact hrest (fun _ _ => rfl) ((h.goTo _).phiTyped hd) hc

theorem redirect_revises (h : Revised start b) {header preheader source : BlockId}
    (hc : redirect header preheader b source = .ok c) : Revised start c := by
  obtain ⟨term?, -, hc⟩ := bind_eq_ok.1 hc
  cases term? with
  | none =>
    cases hc
    exact h
  | some term =>
    obtain ⟨⟨n, g⟩, hg, hc⟩ := bind_eq_ok.1 hc
    cases hc
    exact h.replaceBlockWithin hg

theorem insertPreheader_revises (h : Revised start b) (header : BlockId) (outside : List BlockId) :
    (insertPreheader b header outside).Ensures fun r => Revised start r.2 := by
  refine Run.ensures_after fun name? => Run.ensures_after fun prev? => ?_
  rcases prev? with - | prev
  on_goal 1 => refine (Run.ensures_lift fun r hr => h.addBlock hr).bind fun (_, c) hc => ?_
  on_goal 2 => refine (Run.ensures_lift fun r hr => h.addBlockAfter hr).bind fun (_, c) hc => ?_
  all_goals
    refine Run.ensures_after fun _ => Run.ensures_after fun phis => ?_
    refine (Run.ensures_lift fun d hd => hc.foldlM (fun hc hd => splitPhi_revises hc hd) hd).bind
      fun d hd => ?_
    refine (Run.ensures_lift fun e he => hd.foldlM (fun hc hd => redirect_revises hc hd) he).bind
      fun e he => ?_
    exact (Run.ensures_lift fun r hr => (he.goTo _).br hr).bind fun r hr => Run.ensures_pure hr

theorem repeatWithin_revises {fuel : Nat} {modified : Bool} (h : Revised start b) :
    (repeatWithin fuel modified b).Ensures fun r => Revised start r.2 := by
  induction fuel generalizing modified b with
  | zero => exact Run.ensures_throw _
  | succ fuel ih =>
    rw [repeatWithin]
    refine Run.ensures_after fun t => Run.ensures_after fun ls => ?_
    split
    · exact Run.ensures_pure h
    · exact (insertPreheader_revises h _ _).bind fun (_, c) hc => ih hc

theorem run_revises (b : Builder) : (run b).Ensures fun r => Revised b r.2 := by
  refine Run.ensures_after fun _ => ?_
  split
  · exact Run.ensures_pure .refl
  · exact repeatWithin_revises .refl

end Preheaders

namespace PhiLowering

variable {start b c : Builder}

theorem splitEdge_revises (h : Revised start b) (source target : BlockId) :
    (splitEdge b source target).Ensures (Revised start) := by
  refine (Run.ensures_lift fun r hr => h.addBlockAfter hr).bind fun (split, c) hc => ?_
  refine (Run.ensures_lift fun r hr => (hc.goTo _).br hr).bind fun (_, c) hc => ?_
  refine Run.ensures_after fun term? => ?_
  rcases term? with - | term
  on_goal 2 => refine (Run.ensures_lift fun r hr => hc.replaceBlockWithin hr).bind fun (_, g) hc =>
  ?_
  all_goals
    refine Run.Ensures.bind (P := Revised start) (Run.ensures_pure hc) fun c hc =>
      Run.ensures_after fun phis => ?_
    refine Run.Ensures.bind (P := Revised start) ?_ fun d hd => Run.ensures_after fun _ =>
      Run.ensures_pure hd
    refine Run.ensures_foldlM (Revised start) hc fun d phi _ hd => ?_
    exact (Run.ensures_lift fun r hr => hd.replaceBlockWithin hr).bind fun r hr =>
      Run.ensures_pure hr

theorem splitCriticalEdges_revises (h : Revised start b) :
    (splitCriticalEdges b).Ensures fun r => Revised start r.2 := by
  refine Run.ensures_after fun edges => ?_
  refine Run.Ensures.bind (P := Revised start) ?_ fun c hc => Run.ensures_pure hc
  exact Run.ensures_foldlM (Revised start) h fun c (source, target) _ hc =>
    splitEdge_revises hc source target

theorem addRegister_revises (h : Revised start b) {regs regs' : Registers} {phi : InstId}
    (hc : addRegister b regs phi = .ok (c, regs')) : Revised start c := by
  obtain ⟨result, -, hc⟩ := bind_eq_ok.1 hc
  obtain ⟨ty, -, hc⟩ := bind_eq_ok.1 hc
  have hreg : Revised start (b.withFlow (b.flow.addReg ty).2) := h.edit (.addReg ty) rfl rfl
  cases hc
  split
  · exact hreg.edit (.setName _ _) rfl rfl
  · exact hreg

theorem orderWithin_revises {fuel : Nat} {copies seq : List (ValueId × ValueId)} {g g' : DataFlow}
    (h : Revised start (b.withFlow g))
    (hg : (ParallelCopy.orderWithin temporary fuel copies).run g = .ok (seq, g')) :
    Revised start (b.withFlow g') := by
  induction fuel generalizing g copies seq with
  | zero =>
    cases hg
    exact h
  | succ fuel ih =>
    cases copies with
    | nil =>
      cases hg
      exact h
    | cons c rest =>
      rw [ParallelCopy.orderWithin] at hg
      split at hg
      · obtain ⟨⟨later, g₁⟩, hlater, hg⟩ := bind_eq_ok.1 hg
        cases hg
        exact ih h hlater
      · obtain ⟨⟨saved, g₁⟩, hsaved, hg⟩ := bind_eq_ok.1 hg
        obtain ⟨⟨later, g₂⟩, hlater, hg⟩ := bind_eq_ok.1 hg
        cases hg
        refine ih ?_ hlater
        obtain ⟨⟨ty, g₀⟩, hty, hsaved⟩ := bind_eq_ok.1 hsaved
        obtain ⟨ty', -, hty⟩ := bind_eq_ok.1 hty
        cases hty
        cases hsaved
        exact h.edit (.addReg ty) rfl rfl

theorem insertCopies_revises (h : Revised start b) (block : BlockId)
    (copies : List (ValueId × ValueId)) :
    (insertCopies b block copies).Ensures (Revised start) := by
  refine (Run.ensures_lift fun r hr => orderWithin_revises h hr).bind fun (seq, g) hg => ?_
  refine (Run.ensures_lift fun r hr => hg.atTerminator hr).bind fun c hc => ?_
  refine Run.ensures_foldlM (Revised start) hc fun d (target, source) _ hd => ?_
  refine (Run.ensures_lift fun r hr => hd.copy hr).bind fun (i, e) he => ?_
  exact Run.ensures_after fun _ => Run.ensures_pure he

theorem lower_revises (h : Revised start b) (regs : Registers) (phi : InstId) :
    (lower regs b phi).Ensures (Revised start) := by
  refine Run.ensures_after fun result => Run.ensures_after fun reg => Run.ensures_after fun _ => ?_
  exact (Run.ensures_lift fun c hc => h.replaceUse hc).bind fun c hc =>
    Run.ensures_lift fun d hd => hc.remove hd

theorem run_revises (b : Builder) : (run b).Ensures fun r => Revised b r.2 := by
  refine Run.ensures_after fun _ => ?_
  split
  · exact Run.ensures_pure .refl
  refine (splitCriticalEdges_revises .refl).bind fun (split, c) hc => ?_
  dsimp only
  split
  · exact Run.ensures_pure hc
  refine Run.Ensures.bind (P := fun r => Revised b r.1) ?_ fun (d, regs) hd => ?_
  · refine Run.ensures_foldlM (fun r : Builder × Registers => Revised b r.1) hc fun r phi _ hr => ?_
    exact Run.ensures_lift fun r' hr' => addRegister_revises hr hr'
  refine Run.ensures_after fun copies => ?_
  refine Run.Ensures.bind (P := Revised b) ?_ fun e he => ?_
  · exact Run.ensures_foldlM (Revised b) hd fun e (block, copies) _ he =>
      insertCopies_revises he block copies
  refine Run.Ensures.bind (P := Revised b) ?_ fun e' he' => Run.ensures_pure he'
  exact Run.ensures_foldlM (Revised b) he fun e phi _ he => lower_revises he regs phi

end PhiLowering

theorem Builder.foldBranch_revises {start b : Builder} (h : Revised start b) (block : BlockId)
    (term : InstId) (taken : BlockId) (dropped? : Option BlockId) :
    (b.foldBranch block term taken dropped?).Ensures (Revised start) := by
  refine Run.ensures_after fun _ => ?_
  refine (Run.ensures_lift fun r hr => (h.goTo _).br hr).bind fun (_, c) hc => ?_
  refine (Run.ensures_lift fun d hd => hc.remove hd).bind fun d hd => ?_
  cases dropped? with
  | none => exact Run.ensures_pure hd
  | some dropped =>
    refine Run.ensures_after fun phis => Run.ensures_foldlM (Revised start) hd fun e phi _ he => ?_
    exact (Run.ensures_lift fun r hr => he.removeIncoming hr).bind fun r hr => Run.ensures_pure hr

namespace FlowSimplification

variable {start b c : Builder}

theorem foldBranches_revises (h : Revised start b) :
    (foldBranches b).Ensures fun r => Revised start r.2 := by
  refine Run.ensures_foldlM (fun r : Bool × Builder => Revised start r.2) h fun (modified,
    c) block _ hc => ?_
  refine Run.ensures_after fun term? => ?_
  cases term? with
  | none => exact Run.ensures_pure hc
  | some term =>
    refine Run.ensures_after fun inst => ?_
    split
    · exact Run.ensures_pure hc
    refine Run.ensures_after fun decided => ?_
    cases decided with
    | none => exact Run.ensures_pure hc
    | some targets =>
      exact (Builder.foldBranch_revises hc block term targets.1 targets.2).bind fun d hd =>
        Run.ensures_pure hd

theorem forget_revises {phis : List InstId} {block : BlockId} (h : Revised start b)
    (hc : phis.foldlM (fun (b : Builder) phi => do
      let (_, flow) ← b.flow.removeIncoming phi block
      return b.withFlow flow) b = Except.ok c) : Revised start c := by
  refine h.foldlM (fun {d phi e} hd he => ?_) hc
  obtain ⟨⟨n, g⟩, hg, he⟩ := bind_eq_ok.1 he
  cases he
  exact hd.removeIncoming hg

theorem cutEdges_revises (h : Revised start b) {block : BlockId} (hc : cutEdges b block = .ok c) :
    Revised start c := by
  obtain ⟨succs, -, hc⟩ := bind_eq_ok.1 hc
  obtain ⟨term?, -, hc⟩ := bind_eq_ok.1 hc
  have hcut : ∃ d, Revised start d ∧ succs.foldlM (fun (b : Builder) succ => do
      (← b.func.phis succ).foldlM (fun (b : Builder) phi => do
        let (_, flow) ← b.flow.removeIncoming phi block
        return b.withFlow flow) b) d = Except.ok c := by
    cases term? with
    | none => exact ⟨b, h, hc⟩
    | some term =>
      obtain ⟨d, hd, hc⟩ := bind_eq_ok.1 hc
      exact ⟨d, h.remove hd, hc⟩
  obtain ⟨d, hd, hc⟩ := hcut
  refine hd.foldlM (fun {e succ e'} he he' => ?_) hc
  obtain ⟨phis, -, he'⟩ := bind_eq_ok.1 he'
  exact forget_revises he he'

theorem removeUnreachable_revises (h : Revised start b) :
    (removeUnreachable b).Ensures fun r => Revised start r.2 := by
  refine Run.ensures_after fun dead => ?_
  split
  · exact Run.ensures_pure h
  refine (Run.ensures_lift fun c hc => h.foldlM (fun hd he => cutEdges_revises hd he) hc).bind
    fun c hc => ?_
  refine Run.Ensures.bind (P := Revised start) ?_ fun d hd => Run.ensures_pure hd
  refine Run.ensures_foldlM (Revised start) hc fun d block _ hd => Run.ensures_after fun _ => ?_
  exact Run.ensures_lift fun e he => hd.removeBlock he

theorem simplifyPhis_revises (h : Revised start b) :
    (simplifyPhis b).Ensures fun r => Revised start r.2 :=
  (Builder.removeTrivialPhis_revises h _).bind fun _ hr => Run.ensures_pure hr

theorem resolvePhi_revises (h : Revised start b) {pred : BlockId} {phi : InstId}
    (hc : resolvePhi pred b phi = .ok c) :
    Revised start c := by
  obtain ⟨result, -, hc⟩ := bind_eq_ok.1 hc
  obtain ⟨v?, -, hc⟩ := bind_eq_ok.1 hc
  have hreplace : ∃ d, Revised start d ∧ d.removeInst phi = .ok c := by
    cases v? with
    | none =>
      obtain ⟨d, hd, hc⟩ := bind_eq_ok.1 hc
      exact ⟨d, h.replaceByUndef hd, hc⟩
    | some v =>
      dsimp only at hc
      split at hc
      · obtain ⟨d, hd, hc⟩ := bind_eq_ok.1 hc
        exact ⟨d, h.replaceByUndef hd, hc⟩
      · obtain ⟨d, hd, hc⟩ := bind_eq_ok.1 hc
        exact ⟨d, h.replaceUse hd, hc⟩
  obtain ⟨d, hd, hc⟩ := hreplace
  exact hd.remove hc

theorem mergeInto_revises (h : Revised start b) (block pred : BlockId) (term : InstId) :
    (mergeInto b block pred term).Ensures (Revised start) := by
  refine Run.ensures_after fun _ => Run.ensures_after fun phis => ?_
  refine (Run.ensures_lift fun c hc => h.foldlM (fun hd he => resolvePhi_revises hd he) hc).bind
    fun c hc => ?_
  refine (Run.ensures_lift fun d hd => hc.remove hd).bind fun d hd =>
    Run.ensures_after fun insts => ?_
  refine Run.Ensures.bind (P := Revised start) ?_ fun e he => ?_
  · exact Run.ensures_foldlM (Revised start) hd fun e i _ he => Run.ensures_lift fun e' he' =>
      he.moveToEnd he'
  refine Run.Ensures.bind (P := fun r => Revised start (e.withFlow r.2))
    (Run.ensures_lift fun r hr => ?_) fun r hr => ?_
  · exact he.edit (.replaceBlockUse block pred) rfl (snd_eq_ok.2 ⟨r.1, hr⟩)
  · exact Run.ensures_lift fun e' he' => hr.removeBlock he'

theorem mergeBlocks_revises (h : Revised start b) :
    (mergeBlocks b).Ensures fun r => Revised start r.2 := by
  refine Run.ensures_after fun entry => ?_
  refine Run.ensures_foldlM (fun r : Bool × Builder => Revised start r.2) h fun (modified,
    c) block _ hc => ?_
  refine Run.ensures_after fun target? => ?_
  cases target? with
  | none => exact Run.ensures_pure hc
  | some target =>
    exact (mergeInto_revises hc block target.1 target.2).bind fun d hd => Run.ensures_pure hd

theorem step_revises (h : Revised start b) : (step b).Ensures fun r => Revised start r.2 := by
  refine (foldBranches_revises h).bind fun (_, c) hc => ?_
  refine (removeUnreachable_revises hc).bind fun (_, c) hc => ?_
  refine (simplifyPhis_revises hc).bind fun (_, c) hc => ?_
  exact (mergeBlocks_revises hc).bind fun (_, c) hc => Run.ensures_pure hc

theorem repeatWithin_revises {fuel : Nat} {modified : Bool} (h : Revised start b) :
    (repeatWithin fuel modified b).Ensures fun r => Revised start r.2 := by
  induction fuel generalizing modified b with
  | zero => exact Run.ensures_throw _
  | succ fuel ih =>
    rw [repeatWithin]
    refine (step_revises h).bind fun (changed, c) hc => ?_
    cases changed with
    | true => exact ih hc
    | false => exact Run.ensures_pure hc

theorem run_revises (b : Builder) : (run b).Ensures fun r => Revised b r.2 := by
  refine Run.ensures_after fun _ => ?_
  split
  · exact Run.ensures_pure .refl
  · exact repeatWithin_revises .refl

end FlowSimplification

namespace ConstantPropagation

variable {start b : Builder} {facts : Facts} {modified : Bool}

theorem replaceResult_revises (h : Revised start b) (i : InstId) :
    (replaceResult facts modified b i).Ensures fun r => Revised start r.2 := by
  rw [replaceResult]
  split
  · split
    · rename_i w _
      refine Run.ensures_after fun _ => ?_
      refine (Run.ensures_lift fun c hc => (h.const w).replaceUse hc).bind fun c hc => ?_
      split
      · exact Run.ensures_pure hc
      · exact (Run.ensures_lift fun d hd => hc.remove hd).bind fun d hd => Run.ensures_pure hd
    · exact Run.ensures_pure h
  · exact Run.ensures_pure h

theorem foldBranch_revises (h : Revised start b) (block : BlockId) :
    (foldBranch facts modified b block).Ensures fun r => Revised start r.2 := by
  refine Run.ensures_after fun term? => ?_
  cases term? with
  | none => exact Run.ensures_pure h
  | some term =>
    refine Run.ensures_after fun inst => ?_
    split
    · exact Run.ensures_pure h
    refine Run.ensures_after fun edges? => ?_
    cases edges? with
    | none => exact Run.ensures_pure h
    | some edges =>
      exact (Builder.foldBranch_revises h block term edges.1 (some edges.2)).bind fun c hc =>
        Run.ensures_pure hc

theorem apply_revises (facts : Facts) (b : Builder) :
    (apply facts b).Ensures fun r => Revised b r.2 := by
  refine Run.Ensures.bind (P := fun r => Revised b r.2) ?_ fun (modified, c) hc => ?_
  · refine Run.ensures_foldlM (fun r : Bool × Builder => Revised b r.2) .refl fun (modified,
      c) block _ hc => ?_
    refine Run.ensures_after fun insts => ?_
    exact Run.ensures_foldlM (fun r : Bool × Builder => Revised b r.2) hc
      fun (modified, c) i _ hc =>
      replaceResult_revises hc i
  · exact Run.ensures_foldlM (fun r : Bool × Builder => Revised b r.2) hc fun (modified,
      c) block _ hc =>
      foldBranch_revises hc block

theorem run_revises (b : Builder) : (run b).Ensures fun r => Revised b r.2 := by
  refine Run.ensures_after fun _ => ?_
  split
  · exact Run.ensures_pure .refl
  · exact Run.ensures_after fun facts => apply_revises facts b

end ConstantPropagation

namespace StrengthReduction

variable {start : Builder} {t : DominatorTree} {s : State}

theorem cloneDefinition_revises (h : Revised start s.builder) (iv : ValueId) :
    (cloneDefinition s iv).Ensures fun r => Revised start r.2.2.2.builder := by
  refine Run.ensures_after fun definer => ?_
  refine Run.Ensures.bind (P := fun inst => s.flow.inst? definer = some inst)
    (Run.ensures_lift fun inst hinst => DataFlow.inst_eq_ok.1 hinst) fun inst hinst => ?_
  refine Run.ensures_after fun ty => ?_
  refine (Run.ensures_lift fun r hr => (h.goTo (.after definer)).clone hinst hr).bind
    fun (i, b) hb => ?_
  exact Run.ensures_after fun result => Run.ensures_after fun _ => Run.ensures_pure hb

theorem materialize_revises (h : Revised start s.builder) (op : Opcode) (a b : ValueId)
    (header : BlockId) :
    (materialize t s op a b header).Ensures fun r => Revised start r.2.builder := by
  refine Run.ensures_after fun pair? => ?_
  rcases pair? with - | ⟨x, y⟩
  all_goals
    refine Run.ensures_after fun folded? => ?_
    rcases folded? with - | w
    on_goal 2 => exact Run.ensures_pure (h.const w)
    dsimp only
    split
    · refine (Run.ensures_lift fun c hc => h.atTerminator hc).bind fun c hc => ?_
      refine (Run.ensures_lift fun r hr => hc.binary hr).bind fun r hr => ?_
      exact Run.ensures_after fun _ => Run.ensures_pure hr
    · exact Run.ensures_throw _

theorem setOperand_revises {reduce applyTo : State → ValueId → Run (ValueId × State)}
    (hreduce : ∀ {s} v, Revised start s.builder → (reduce s v).Ensures fun r =>
      Revised start r.2.builder)
    (happlyTo : ∀ {s} v, Revised start s.builder → (applyTo s v).Ensures fun r =>
      Revised start r.2.builder)
    (header : BlockId) (applies : Bool) (i : InstId) (h : Revised start s.builder)
    (operand : ValueId × Nat) :
    (setOperand reduce applyTo header applies i s operand).Ensures fun s' =>
      Revised start s'.builder := by
  have hset : ∀ {s : State} {v : ValueId}, Revised start s.builder →
      (liftM (s.setArg i operand.2 v) : Run State).Ensures fun s' => Revised start s'.builder := by
    refine fun {s v} hs => Run.ensures_lift fun s' hs' => ?_
    obtain ⟨g, hg, hs'⟩ := bind_eq_ok.1 hs'
    cases hs'
    exact hs.edit (.setArg i operand.2 v) rfl hg
  rw [setOperand]
  split
  · exact (hreduce operand.1 h).bind fun r hr => hset hr
  · split
    · exact (happlyTo operand.1 h).bind fun r hr => hset hr
    · exact Run.ensures_pure h

theorem call_revises (fuel : Nat) :
    (∀ {s} op iv rc, Revised start s.builder → (reduce t fuel s op iv rc).Ensures fun r =>
      Revised start r.2.builder) ∧
      ∀ {s} op a b header, Revised start s.builder →
        (applyTo t fuel s op a b header).Ensures fun r => Revised start r.2.builder := by
  induction fuel with
  | zero => exact ⟨fun _ _ _ _ => Run.ensures_throw _, fun _ _ _ _ _ => Run.ensures_throw _⟩
  | succ fuel ih =>
    constructor
    · intro s op iv rc h
      rw [reduce]
      split
      · exact Run.ensures_pure h
      refine Run.ensures_after fun header => (cloneDefinition_revises h iv).bind fun (inst, i,
        result, s') hs' => ?_
      refine Run.Ensures.bind (P := fun s' => Revised start s'.builder) ?_ fun s'' hs'' =>
        Run.ensures_pure hs''
      refine Run.ensures_foldlM (fun s' : State => Revised start s'.builder) hs'
        fun s'' operand _ hs'' => ?_
      exact setOperand_revises (fun v hs => ih.1 op v rc hs) (fun v hs => ih.2 op v rc header hs)
        header _ i hs'' operand
    · intro s op a b header h
      rw [applyTo]
      have hnew := materialize_revises (t := t) h op a b header
      split
      · exact Run.ensures_pure h
      refine Run.ensures_after fun candidate => ?_
      split
      · exact ih.1 op a b h
      dsimp only
      split
      · refine Run.ensures_after fun candidate => ?_
        split
        · exact ih.1 op b a h
        · exact hnew.bind fun r hr => Run.ensures_pure hr
      · exact hnew.bind fun r hr => Run.ensures_pure hr

theorem reduceInst_revises (h : Revised start s.builder) (i : InstId) :
    (reduceInst t s i).Ensures fun s' => Revised start s'.builder := by
  refine Run.ensures_after fun inst => Run.ensures_after fun candidate? => ?_
  cases candidate? with
  | none => exact Run.ensures_pure h
  | some operands =>
    refine Run.ensures_after fun result => ?_
    refine ((call_revises _).1 _ _ _ h).bind fun (v, s') hs' => Run.ensures_after fun _ => ?_
    refine (Run.ensures_lift fun c hc => hs'.replaceUse hc).bind fun c hc => ?_
    exact (Run.ensures_lift fun d hd => hc.remove hd).bind fun d hd => Run.ensures_pure hd

theorem processComponent_revises (h : Revised start s.builder) (component : List InstId) :
    (processComponent t s component).Ensures fun s' => Revised start s'.builder := by
  rw [processComponent]
  refine Run.ensures_after_ite fun header? => ?_
  cases header? with
  | some header =>
    exact Run.ensures_after fun _ => Run.ensures_after fun results => Run.ensures_pure h
  | none =>
    refine Run.ensures_foldlM (fun s' : State => Revised start s'.builder) h fun s' i _ hs' => ?_
    split
    · exact reduceInst_revises hs' i
    · exact Run.ensures_pure hs'

theorem run_revises (b : Builder) : (run b).Ensures fun r => Revised b r.2 := by
  refine Run.ensures_after fun _ => ?_
  split
  · exact Run.ensures_pure .refl
  refine Run.ensures_after fun t => Run.ensures_after fun components =>
    Run.ensures_after fun _ => ?_
  refine Run.Ensures.bind (P := fun s => Revised b s.builder) ?_ fun s hs => Run.ensures_pure hs
  exact Run.ensures_foldlM (fun s : State => Revised b s.builder) .refl fun s component _ hs =>
    processComponent_revises hs component

end StrengthReduction

namespace ValueNumbering

variable {start : Builder} {t : DominatorTree} {s : State}

namespace State

theorem merge_revises (h : Revised start s.builder) (i : InstId) (v : ValueId) :
    (s.merge i v).Ensures fun s' => Revised start s'.builder :=
  Run.ensures_after fun _ => Run.ensures_after fun _ => Run.ensures_pure h

theorem numberPhis_revises {seen : List (List (BlockId × ValueId) × ValueId)} {phis : List InstId}
    (h : Revised start s.builder) :
    (numberPhis t seen phis s).Ensures fun s' => Revised start s'.builder := by
  induction phis generalizing seen s with
  | nil => exact Run.ensures_pure h
  | cons phi rest ih =>
    refine Run.ensures_after fun result => Run.ensures_after fun inst => ?_
    dsimp only
    split
    · exact (merge_revises h phi _).bind fun s' hs' => ih hs'
    · split
      · exact (merge_revises h phi _).bind fun s' hs' => ih hs'
      · exact ih h

theorem numberOperands_revises (h : Revised start s.builder) (i : InstId) :
    (s.numberOperands i).Ensures fun s' => Revised start s'.builder := by
  refine Run.ensures_after fun inst => ?_
  refine Run.ensures_foldlM (fun s' : State => Revised start s'.builder) h fun s' (v, n) _ hs' => ?_
  dsimp only
  split
  · exact Run.ensures_pure hs'
  · exact (Run.ensures_lift fun g hg => hs'.edit (.setArg i n _) rfl hg).bind fun g hg =>
      Run.ensures_pure hg

theorem numberInst_revises (h : Revised start s.builder) (available : Available) (i : InstId) :
    (s.numberInst available i).Ensures fun r => Revised start r.1.builder := by
  refine (numberOperands_revises h i).bind fun s' hs' => Run.ensures_after fun inst => ?_
  split
  · exact Run.ensures_pure hs'
  refine Run.ensures_after fun folded => ?_
  cases folded with
  | some w => exact (merge_revises (hs'.const w) i _).bind fun s'' hs'' => Run.ensures_pure hs''
  | none =>
    refine Run.ensures_after fun expr => ?_
    split
    · exact (merge_revises hs' i _).bind fun s'' hs'' => Run.ensures_pure hs''
    · exact Run.ensures_after fun result => Run.ensures_pure hs'

theorem fillSuccessors_revises (h : Revised start s.builder) (b : BlockId) :
    (s.fillSuccessors b).Ensures fun s' => Revised start s'.builder := by
  refine Run.ensures_after fun succs => ?_
  refine Run.ensures_foldlM (fun s' : State => Revised start s'.builder) h fun s' succ _ hs' => ?_
  refine Run.ensures_after fun phis => ?_
  refine Run.ensures_foldlM (fun s' : State => Revised start s'.builder) hs' fun s' phi _ hs' => ?_
  refine Run.ensures_after fun v? => ?_
  cases v? with
  | none => exact Run.ensures_pure hs'
  | some v =>
    dsimp only
    split
    · exact Run.ensures_pure hs'
    · exact (Run.ensures_lift fun g hg => hs'.edit (.setIncoming phi b _) rfl hg).bind fun g hg =>
        Run.ensures_pure hg

theorem walk_revises {fuel : Nat} {available : Available} {b : BlockId}
    (h : Revised start s.builder) :
    (walk t fuel available s b).Ensures fun s' => Revised start s'.builder := by
  induction fuel generalizing available s b with
  | zero => exact Run.ensures_throw _
  | succ fuel ih =>
    rw [walk]
    refine Run.ensures_after fun _ => Run.ensures_after fun phis => ?_
    refine (numberPhis_revises h).bind fun s' hs' => Run.ensures_after fun insts => ?_
    refine Run.Ensures.bind (P := fun r => Revised start r.1.builder) ?_ fun (s'',
      available) hs'' => ?_
    · exact Run.ensures_foldlM (fun r : State × Available => Revised start r.1.builder) hs' fun (s',
        available) i _ hs' =>
        numberInst_revises hs' available i
    refine (fillSuccessors_revises hs'' b).bind fun s' hs' => Run.ensures_after fun children => ?_
    exact Run.ensures_foldlM (fun s' : State => Revised start s'.builder) hs' fun s' child _ hs' =>
      ih hs'

theorem finish_revises (h : Revised start s.builder) {b : Builder} (hb : s.finish = .ok b) :
    Revised start b := by
  obtain ⟨c, hc, hb⟩ := bind_eq_ok.1 hb
  have hreplaced : Revised start c := h.foldlM (fun {d i e} hd he => by
    obtain ⟨result, -, he⟩ := bind_eq_ok.1 he
    exact hd.replaceUse he) hc
  exact hreplaced.foldlM (fun hd he => hd.remove he) hb

end State

theorem repeatWithin_revises {b : Builder} {fuel : Nat} {modified : Bool} (h : Revised start b) :
    (repeatWithin fuel modified b).Ensures fun r => Revised start r.2 := by
  induction fuel generalizing modified b with
  | zero => exact Run.ensures_throw _
  | succ fuel ih =>
    rw [repeatWithin]
    refine Run.ensures_after fun t => Run.ensures_after fun root => ?_
    have hstart : Revised start (State.builder { builder := b }) := h
    refine (State.walk_revises hstart).bind fun s hs => ?_
    refine (Run.ensures_lift fun c hc => State.finish_revises hs hc).bind fun c hc => ?_
    split
    · exact Run.ensures_pure hc
    · exact ih hc

theorem run_revises (b : Builder) : (run b).Ensures fun r => Revised b r.2 := by
  refine Run.ensures_after fun _ => ?_
  split
  · exact Run.ensures_pure .refl
  · exact repeatWithin_revises .refl

end ValueNumbering

namespace Promotion

variable {start : Builder} {t : DominatorTree} {s s' : State}

namespace State

theorem addPhi_revises (h : Revised start s.builder) (slot : Slot) (block : BlockId) :
    (s.addPhi slot block).Ensures fun s' => Revised start s'.builder := by
  refine (Run.ensures_lift fun r hr => (h.goTo _).phiTyped hr).bind fun (v, b) hb => ?_
  exact Run.ensures_after fun phi => Run.ensures_after fun _ => Run.ensures_pure hb

theorem placeFrom_revises {slot : Slot} {fuel : Nat} {stack visited merging : List BlockId}
    (h : Revised start s.builder) :
    (placeFrom t slot fuel stack visited merging s).Ensures fun s' => Revised start s'.builder := by
  induction fuel generalizing stack visited merging s with
  | zero =>
    cases stack with
    | nil => exact Run.ensures_pure h
    | cons b stack => exact Run.ensures_throw _
  | succ fuel ih =>
    cases stack with
    | nil => exact Run.ensures_pure h
    | cons b stack =>
      rw [placeFrom]
      refine Run.ensures_after fun frontier => ?_
      refine Run.Ensures.bind (P := fun s' => Revised start s'.builder) ?_ fun s' hs' => ih hs'
      exact Run.ensures_foldlM (fun s' : State => Revised start s'.builder) h fun s' c _ hs' =>
        addPhi_revises hs' slot c

theorem placePhis_revises (h : Revised start s.builder) (t : DominatorTree) :
    (s.placePhis t).Ensures fun s' => Revised start s'.builder :=
  Run.ensures_foldlM (fun s' : State => Revised start s'.builder) h fun _ _ _ hs' =>
    placeFrom_revises hs'

theorem current_revises (h : Revised start s.builder) (versions : Versions) (slot : Slot) :
    Revised start (s.current versions slot).2.builder := by
  unfold current
  split
  · exact h
  · exact h.undef slot.ty

theorem renameInst_revises (h : Revised start s.builder) (versions : Versions) (i : InstId) :
    (s.renameInst versions i).Ensures fun r => Revised start r.1.builder := by
  refine Run.ensures_after fun inst => Run.ensures_after fun slot? => ?_
  cases slot? with
  | none => exact Run.ensures_pure h
  | some slot =>
    dsimp only
    split
    · exact Run.ensures_after fun v => Run.ensures_pure h
    · refine Run.ensures_after fun load => Run.ensures_after fun _ => ?_
      refine (Run.ensures_lift fun c hc => (current_revises h versions slot).replaceUse hc).bind
        fun c hc => ?_
      exact Run.ensures_pure hc

theorem fillSuccessors_revises (h : Revised start s.builder) (versions : Versions) (b : BlockId) :
    (s.fillSuccessors versions b).Ensures fun s' => Revised start s'.builder := by
  refine Run.ensures_after fun succs => ?_
  refine Run.ensures_foldlM (fun s' : State => Revised start s'.builder) h fun s' succ _ hs' => ?_
  refine Run.ensures_foldlM (fun s' : State => Revised start s'.builder) hs' fun s' (phi,
    slot) _ hs' => ?_
  refine (Run.ensures_lift fun g hg => ?_).bind fun g hg => Run.ensures_pure hg
  exact (current_revises hs' versions slot).edit (.addIncoming phi _ b) rfl hg

theorem rename_revises {fuel : Nat} {versions : Versions} {b : BlockId}
    (h : Revised start s.builder) :
    (rename t fuel versions s b).Ensures fun s' => Revised start s'.builder := by
  induction fuel generalizing versions s b with
  | zero => exact Run.ensures_throw _
  | succ fuel ih =>
    rw [rename]
    refine Run.ensures_after fun versions => Run.ensures_after fun insts => ?_
    refine Run.Ensures.bind (P := fun r => Revised start r.1.builder) ?_ fun (s',
      versions) hs' => ?_
    · exact Run.ensures_foldlM (fun r : State × Versions => Revised start r.1.builder) h fun (s',
        versions) i _ hs' =>
        renameInst_revises hs' versions i
    refine (fillSuccessors_revises hs' versions b).bind fun s' hs' =>
      Run.ensures_after fun children => ?_
    exact Run.ensures_foldlM (fun s' : State => Revised start s'.builder) hs' fun s' child _ hs' =>
      ih hs'

theorem fillUnreachable_revises (h : Revised start s.builder) (hs : s.fillUnreachable t = .ok s') :
    Revised start s'.builder := by
  refine foldlM_ok_induct (fun _ (s : State) => Revised start s.builder) hs h ?_
  intro _ phi _ c c' _ hc hstep
  dsimp only at hstep
  split at hstep
  · obtain ⟨result, -, hstep⟩ := bind_eq_ok.1 hstep
    obtain ⟨ty, -, hstep⟩ := bind_eq_ok.1 hstep
    refine foldlM_ok_induct (fun _ (s : State) => Revised start s.builder) hstep hc ?_
    intro _ pred _ d d' _ hd hedge
    obtain ⟨g, hg, hedge⟩ := bind_eq_ok.1 hedge
    cases hedge
    exact (hd.undef ty).edit (.addIncoming phi _ pred) rfl hg
  · cases hstep

theorem fillLoads_revises (h : Revised start s.builder) (hs : s.fillLoads = .ok s') :
    Revised start s'.builder := by
  refine foldlM_ok_induct (fun _ (s : State) => Revised start s.builder) hs h ?_
  intro _ i _ c c' _ hc hstep
  obtain ⟨inst, -, hstep⟩ := bind_eq_ok.1 hstep
  split at hstep
  · cases hstep
    exact hc
  obtain ⟨load, -, hstep⟩ := bind_eq_ok.1 hstep
  obtain ⟨used, -, hstep⟩ := bind_eq_ok.1 hstep
  split at hstep
  · obtain ⟨b, hb, hstep⟩ := bind_eq_ok.1 hstep
    cases hstep
    exact hc.replaceByUndef hb
  · cases hstep
    exact hc

theorem prunePhis_revises (h : Revised start s.builder) :
    s.prunePhis.Ensures fun s' => Revised start s'.builder := by
  refine Run.ensures_after fun needed => ?_
  refine Run.Ensures.bind (P := Revised start) ?_ fun c hc => Run.ensures_pure hc
  refine Run.ensures_foldlM (Revised start) h fun c phi _ hc => Run.ensures_after fun _ => ?_
  exact Run.ensures_lift fun d hd => hc.delete hd

theorem removeSlots_revises (h : Revised start s.builder) :
    s.removeSlots.Ensures (Revised start) := by
  refine Run.Ensures.bind (P := Revised start) ?_ fun c hc => ?_
  · refine Run.ensures_foldlM (Revised start) h fun c i _ hc => Run.ensures_after fun _ => ?_
    exact Run.ensures_lift fun d hd => hc.delete hd
  · refine Run.ensures_foldlM (Revised start) hc fun c slot _ hc => Run.ensures_after fun _ => ?_
    exact Run.ensures_lift fun d hd => hc.delete hd

theorem ofSlots_builder {b : Builder} {slots : List InstId} (h : ofSlots b slots = .ok s) :
    s.builder = b := by
  obtain ⟨_, -, h⟩ := bind_eq_ok.1 h
  obtain ⟨_, -, h⟩ := bind_eq_ok.1 h
  cases h
  rfl

end State

theorem run_revises (b : Builder) : (run b).Ensures fun r => Revised b r.2 := by
  refine Run.ensures_after fun _ => ?_
  split
  · exact Run.ensures_pure .refl
  refine Run.ensures_after fun slots => ?_
  split
  · exact Run.ensures_pure .refl
  refine Run.ensures_after fun t => ?_
  refine Run.Ensures.bind (P := fun s => Revised b s.builder) (Run.ensures_lift fun s hs => ?_)
    fun s hs => ?_
  · rw [State.ofSlots_builder hs]
  refine Run.ensures_after fun _ => ?_
  refine (State.placePhis_revises hs t).bind fun s hs => Run.ensures_after fun root => ?_
  refine (State.rename_revises hs).bind fun s hs => ?_
  refine (Run.ensures_lift fun s' hs' => State.fillUnreachable_revises hs hs').bind fun s hs => ?_
  refine (Run.ensures_lift fun s' hs' => State.fillLoads_revises hs hs').bind fun s hs => ?_
  refine (State.prunePhis_revises hs).bind fun s hs => ?_
  refine (State.removeSlots_revises hs).bind fun c hc => ?_
  exact (Builder.removeTrivialPhis_revises hc _).bind fun r hr => Run.ensures_pure hr

end Promotion

/-- The functions may have changed, but there are as many, under the same keys. -/
structure Module.Revised (m m' : Module) : Prop where
  forth : ∀ {id f}, m.funcs.get? id = some f → ∃ f', m'.funcs.get? id = some f' ∧ f.Revised f'
  back : ∀ {id f'}, m'.funcs.get? id = some f' → ∃ f, m.funcs.get? id = some f ∧ f.Revised f'

namespace Module.Revised

variable {m m' m'' : Module} {id : FuncId} {f f' : Func}

theorem refl (m : Module) : m.Revised m :=
  ⟨fun hf => ⟨_, hf, .refl _⟩, fun hf => ⟨_, hf, .refl _⟩⟩

theorem put (h : m.Revised m') (hf : m.funcs.get? id = some f) (hr : f.Revised f')
    (hm : m'.setFunc id f' = .ok m'') :
    m.Revised m'' := by
  obtain ⟨old, hold, -⟩ := h.forth hf
  obtain ⟨funcs, hfuncs, hget, -⟩ := Table.set_ok f' hold
  rw [Module.setFunc, hfuncs] at hm
  cases hm
  constructor
  · intro id' g hg
    by_cases hid : id' = id
    · subst hid
      cases hf.symm.trans hg
      exact ⟨f', (hget id').trans (if_pos rfl), hr⟩
    · obtain ⟨g', hg', hr'⟩ := h.forth hg
      exact ⟨g', ((hget id').trans (if_neg hid)).trans hg', hr'⟩
  · intro id' g hg
    have hg := (hget id').symm.trans hg
    by_cases hid : id' = id
    · subst hid
      cases (if_pos rfl).symm.trans hg
      exact ⟨f, hf, hr⟩
    · exact h.back ((if_neg hid).symm.trans hg)

end Module.Revised

theorem Pass.onFuncs_revises {run : Builder → Run (Bool × Builder)}
    (h : ∀ b, (run b).Ensures fun r => Revised b r.2) (m : Module) :
    (onFuncs run m).Ensures fun r => m.Revised r.2 := by
  refine Run.ensures_foldlM (fun r : Bool × Module => m.Revised r.2) (.refl m) fun (modified,
    m') (id, f) hf hm => ?_
  refine (h { func := f }).bind fun (changed, b) hb => ?_
  refine (Run.ensures_lift fun m'' hset => ?_).bind fun m'' hm'' => Run.ensures_pure hm''
  exact hm.put (Table.mem_toList.1 hf) ⟨b, hb, rfl⟩ hset

theorem ConstantPropagation.runOnModule_revises (maxDepth : Nat) (m : Module) :
    (runOnModule maxDepth m).Ensures fun r => m.Revised r.2 := by
  refine Run.ensures_foldlM (fun r : Bool × Module => m.Revised r.2) (.refl m) fun (modified,
    m') id _ hm => ?_
  refine Run.Ensures.bind (P := fun f => m'.funcs.get? id = some f) (Run.ensures_lift fun f hf =>
    ?_) fun f hf => ?_
  · exact ofOption_eq_ok.1 hf
  refine Run.ensures_after fun _ => ?_
  split
  · exact Run.ensures_pure hm
  refine Run.ensures_after fun facts => (apply_revises facts { func := f }).bind
    fun (changed, b) hb => ?_
  refine (Run.ensures_lift fun m'' hset => ?_).bind fun m'' hm'' => Run.ensures_pure hm''
  obtain ⟨f₀, hf₀, hr⟩ := hm.back hf
  exact hm.put hf₀ (hr.trans ⟨b, hb, rfl⟩) hset

namespace Pass

/-- The pass is a revision of a function and of a module. -/
structure Revises (p : Pass) : Prop where
  onFunc : ∀ b, (p.onFunc b).Ensures fun r => Revised b r.2
  onModule : ∀ settings m, (p.onModule settings m).Ensures fun r => m.Revised r.2

theorem Revises.ofFunc {name description : String} {run : Builder → Run (Bool × Builder)}
    (h : ∀ b, (run b).Ensures fun r => Revised b r.2) :
    (Pass.ofFunc name description run).Revises where
  onFunc := h
  onModule _ m := onFuncs_revises h m

theorem all_revise : ∀ p ∈ all, p.Revises := by
  simp only [all, List.forall_mem_cons, List.not_mem_nil, false_implies, implies_true, and_true]
  refine ⟨.ofFunc Promotion.run_revises, .ofFunc ValueNumbering.run_revises, ?_,
    .ofFunc FlowSimplification.run_revises, .ofFunc DeadCode.run_revises,
    .ofFunc LiveCode.run_revises, .ofFunc StrengthReduction.run_revises,
    .ofFunc Preheaders.run_revises, .ofFunc PhiLowering.run_revises, ?_⟩
  · exact ⟨ConstantPropagation.run_revises, fun settings m =>
      ConstantPropagation.runOnModule_revises settings.maxCallDepth m⟩
  · refine ⟨fun b => Run.ensures_pure .refl, fun _ m => ?_⟩
    refine Run.ensures_after fun errors => ?_
    dsimp only
    split
    · exact Run.ensures_after fun _ => Run.ensures_pure (.refl m)
    · exact Run.ensures_pure (.refl m)

end Pass

end MiddleEnd
