import MiddleEnd.Pass
import MiddleEnd.Proofs.Building
import MiddleEnd.Proofs.Outcome
import MiddleEnd.Proofs.SettledNumbers
import MiddleEnd.Proofs.SimplifiedFlow

/-!
# Reports of change

A pass says whether it changed what it was given. Whoever repeats passes until nothing changes
relies on the answer, so that it must never be "no" after a change. Every step of a pass keeps that
true: either it leaves things as they are, or it owns up.
-/

namespace MiddleEnd

/-- A report of what became of `start`: it denies a change only if there was none. -/
def Truthful {α : Type} (start : α) (report : Bool × α) : Prop :=
  report.1 = false → report.2 = start

namespace Truthful

variable {α : Type}

theorem refl (modified : Bool) (start : α) : Truthful start (modified, start) := fun _ => rfl

theorem modified (start now : α) : Truthful start (true, now) := nofun

end Truthful

theorem Promotion.run_truthful (b : Builder) : (run b).Ensures (Truthful b) := by
  refine Run.ensures_after fun _ => ?_
  split
  · exact Run.ensures_pure (.refl false b)
  refine Run.ensures_after fun slots => ?_
  split
  · exact Run.ensures_pure (.refl false b)
  -- whatever happens to the slots, the answer is yes
  exact Run.ensures_after fun _ => Run.ensures_after fun _ => Run.ensures_after fun _ =>
    Run.ensures_after fun _ => Run.ensures_after fun _ => Run.ensures_after fun _ =>
    Run.ensures_after fun _ => Run.ensures_after fun _ => Run.ensures_after fun _ =>
    Run.ensures_after fun _ => Run.ensures_after fun _ => Run.ensures_pure (.modified b _)

namespace DeadCode

theorem removeFrom_truthful {start : Builder} {fuel : Nat} {modified : Bool}
    {work : List InstId} {b : Builder} (h : Truthful start (modified, b)) :
    (removeFrom fuel modified work b).Ensures (Truthful start) := by
  induction fuel generalizing modified work b with
  | zero =>
    cases work with
    | nil => exact Run.ensures_pure h
    | cons i rest => exact Run.ensures_throw _
  | succ fuel ih =>
    cases work with
    | nil => exact Run.ensures_pure h
    | cons i rest =>
      rw [removeFrom]
      split
      · exact ih h
      refine Run.ensures_after fun dead => ?_
      split
      · exact ih h
      exact Run.ensures_after fun _ => Run.ensures_after fun _ => Run.ensures_after fun _ =>
        Run.ensures_after fun b' => ih (.modified start b')

theorem run_truthful (b : Builder) : (run b).Ensures (Truthful b) :=
  Run.ensures_after fun _ => removeFrom_truthful (.refl false b)

end DeadCode

theorem LiveCode.run_truthful (b : Builder) : (run b).Ensures (Truthful b) := by
  refine Run.ensures_after fun _ => Run.ensures_after fun live => Run.ensures_after fun _ => ?_
  cases hdead : b.func.allInsts.filter (· ∉ live) with
  | nil => exact Run.ensures_pure (.refl false b)
  | cons i rest => exact Run.ensures_after fun b' => Run.ensures_pure (.modified b b')

namespace Preheaders

theorem repeatWithin_truthful {start : Builder} {fuel : Nat} {modified : Bool} {b : Builder}
    (h : Truthful start (modified, b)) :
    (repeatWithin fuel modified b).Ensures (Truthful start) := by
  induction fuel generalizing modified b with
  | zero => exact Run.ensures_throw _
  | succ fuel ih =>
    rw [repeatWithin]
    refine Run.ensures_after fun t => Run.ensures_after fun ls => ?_
    split
    · exact Run.ensures_pure h
    · exact Run.ensures_after fun (_, b') => ih (.modified start b')

theorem run_truthful (b : Builder) : (run b).Ensures (Truthful b) := by
  refine Run.ensures_after fun _ => ?_
  split
  · exact Run.ensures_pure (.refl false b)
  · exact repeatWithin_truthful (.refl false b)

end Preheaders

namespace PhiLowering

theorem splitCriticalEdges_truthful (b : Builder) :
    (splitCriticalEdges b).Ensures (Truthful b) := by
  refine Run.ensures_after fun edges => ?_
  cases edges with
  | nil => exact Run.ensures_pure (.refl false b)
  | cons edge rest => exact Run.ensures_after fun b' => Run.ensures_pure (.modified b b')

theorem run_truthful (b : Builder) : (run b).Ensures (Truthful b) := by
  refine Run.ensures_after fun _ => ?_
  split
  · exact Run.ensures_pure (.refl false b)
  refine (splitCriticalEdges_truthful b).bind fun (split, b') h => ?_
  dsimp only
  split
  · exact Run.ensures_pure h
  · exact Run.ensures_after fun _ => Run.ensures_after fun _ => Run.ensures_after fun _ =>
      Run.ensures_after fun _ => Run.ensures_pure (.modified b _)

end PhiLowering

namespace FlowSimplification

theorem repeatWithin_truthful {start : Builder} {fuel : Nat} {modified : Bool} {b : Builder}
    (h : Truthful start (modified, b)) :
    (repeatWithin fuel modified b).Ensures (Truthful start) := by
  induction fuel generalizing modified b with
  | zero => exact Run.ensures_throw _
  | succ fuel ih =>
    rw [repeatWithin]
    refine (step_settles b).bind fun (changed, b') hstep => ?_
    cases changed with
    | true => exact ih (.modified start b')
    | false =>
      rw [show b' = b from (hstep rfl).1]
      exact Run.ensures_pure h

theorem run_truthful (b : Builder) : (run b).Ensures (Truthful b) := by
  refine Run.ensures_after fun _ => ?_
  split
  · exact Run.ensures_pure (.refl false b)
  · exact repeatWithin_truthful (.refl false b)

end FlowSimplification

namespace ConstantPropagation

variable {start : Builder} {facts : Facts} {modified : Bool} {b : Builder}

theorem replaceResult_truthful (i : InstId) (h : Truthful start (modified, b)) :
    (replaceResult facts modified b i).Ensures (Truthful start) := by
  rw [replaceResult]
  split
  · split
    · refine Run.ensures_after fun _ => Run.ensures_after fun b' => ?_
      split
      · exact Run.ensures_pure (.modified start b')
      · exact Run.ensures_after fun b'' => Run.ensures_pure (.modified start b'')
    · exact Run.ensures_pure h
  · exact Run.ensures_pure h

theorem foldBranch_truthful (block : BlockId) (h : Truthful start (modified, b)) :
    (foldBranch facts modified b block).Ensures (Truthful start) := by
  refine Run.ensures_after fun term => ?_
  cases term with
  | none => exact Run.ensures_pure h
  | some term =>
    refine Run.ensures_after fun inst => ?_
    split
    · exact Run.ensures_pure h
    refine Run.ensures_after fun only => ?_
    cases only with
    | none => exact Run.ensures_pure h
    | some edges => exact Run.ensures_after fun b' => Run.ensures_pure (.modified start b')

theorem apply_truthful (facts : Facts) (b : Builder) : (apply facts b).Ensures (Truthful b) := by
  refine Run.Ensures.bind (P := Truthful b) ?_ fun (modified, b') h => ?_
  · refine Run.ensures_foldlM (Truthful b) (.refl false b) fun (modified, c) block _ h => ?_
    refine Run.ensures_after fun insts => ?_
    exact Run.ensures_foldlM (Truthful b) h fun (_, _) i _ h => replaceResult_truthful i h
  · exact Run.ensures_foldlM (Truthful b) h fun (_, _) block _ h => foldBranch_truthful block h

theorem run_truthful (b : Builder) : (run b).Ensures (Truthful b) := by
  refine Run.ensures_after fun _ => ?_
  split
  · exact Run.ensures_pure (.refl false b)
  · exact Run.ensures_after fun facts => apply_truthful facts b

end ConstantPropagation

namespace ValueNumbering

theorem repeatWithin_truthful {start : Builder} {fuel : Nat} {modified : Bool} {b : Builder}
    (h : Truthful start (modified, b)) :
    (repeatWithin fuel modified b).Ensures (Truthful start) := by
  induction fuel generalizing modified b with
  | zero => exact Run.ensures_throw _
  | succ fuel ih =>
    rw [repeatWithin]
    refine Run.ensures_after fun t => Run.ensures_after fun root => ?_
    have hstart : State.Untouched b True { builder := b } := fun _ => ⟨rfl, trivial⟩
    refine (State.walk_untouched hstart).bind fun s hs => ?_
    cases hr : s.redundant with
    | cons i rest => exact Run.ensures_after fun b' => ih (.modified start b')
    | nil =>
      rw [(hs hr).1]
      exact Run.ensures_pure h

theorem run_truthful (b : Builder) : (run b).Ensures (Truthful b) := by
  refine Run.ensures_after fun _ => ?_
  split
  · exact Run.ensures_pure (.refl false b)
  · exact repeatWithin_truthful (.refl false b)

end ValueNumbering

namespace StrengthReduction

/-- What the walk over the components says so far about the function it started from. -/
def State.Truthful (start : Builder) (s : State) : Prop :=
  MiddleEnd.Truthful start (s.modified, s.builder)

theorem reduceInst_truthful {start : Builder} {t : DominatorTree} {s : State} (i : InstId)
    (h : s.Truthful start) : (reduceInst t s i).Ensures (State.Truthful start) := by
  refine Run.ensures_after fun inst => Run.ensures_after fun candidate => ?_
  cases candidate with
  | none => exact Run.ensures_pure h
  | some operands =>
    exact Run.ensures_after fun _ => Run.ensures_after fun _ => Run.ensures_after fun _ =>
      Run.ensures_after fun _ => Run.ensures_after fun b' => Run.ensures_pure (.modified start b')

theorem processComponent_truthful {start : Builder} {t : DominatorTree} {s : State}
    (component : List InstId) (h : s.Truthful start) :
    (processComponent t s component).Ensures (State.Truthful start) := by
  rw [processComponent]
  refine Run.ensures_after_ite fun header? => ?_
  cases header? with
  | some header =>
    -- a variable is noted, the function is not looked at
    exact Run.ensures_after fun _ => Run.ensures_after fun results => Run.ensures_pure h
  | none =>
    refine Run.ensures_foldlM (State.Truthful start) h fun s i _ h => ?_
    split
    · exact reduceInst_truthful i h
    · exact Run.ensures_pure h

theorem run_truthful (b : Builder) : (run b).Ensures (Truthful b) := by
  refine Run.ensures_after fun _ => ?_
  split
  · exact Run.ensures_pure (.refl false b)
  refine Run.ensures_after fun t => Run.ensures_after fun components =>
    Run.ensures_after fun _ => ?_
  refine Run.Ensures.bind (P := State.Truthful b) ?_ fun s h => Run.ensures_pure h
  exact Run.ensures_foldlM (State.Truthful b) (.refl false b) fun s component _ h =>
    processComponent_truthful component h

end StrengthReduction

theorem Table.map_self {κ α : Type} [Key κ] (t : Table κ α) : t.map (fun a => a) = t := by
  simp [Table.map]

theorem Module.setFunc_self {m m' : Module} {id : FuncId} {f : Func} (hf : m.funcs.get? id = some f)
    (h : m.setFunc id f = .ok m') : m' = m := by
  obtain ⟨funcs, hfuncs, -, hmap⟩ := Table.set_ok f hf
  have hsame := hmap (π := fun g => g) rfl
  rw [Table.map_self, Table.map_self] at hsame
  rw [setFunc, hfuncs, hsame] at h
  cases h
  rfl

namespace Pass

theorem onFuncs_truthful {run : Builder → Run (Bool × Builder)}
    (h : ∀ b, (run b).Ensures (Truthful b)) (m : Module) :
    (onFuncs run m).Ensures (Truthful m) := by
  refine Run.ensures_foldlM (Truthful m) (.refl false m) fun (modified, m') (id, f) hf hm => ?_
  refine (h { func := f }).bind fun (changed, b) hb => ?_
  refine Run.Ensures.bind (P := fun m'' => Truthful m (modified || changed, m'')) ?_ fun _ h =>
    Run.ensures_pure h
  refine Run.ensures_lift fun m'' hset hno => ?_
  obtain ⟨hno, hchanged⟩ := Bool.or_eq_false_iff.1 hno
  cases hm hno
  cases hb hchanged
  exact Module.setFunc_self (Table.mem_toList.1 hf) hset

end Pass

theorem ConstantPropagation.runOnModule_truthful (maxDepth : Nat) (m : Module) :
    (runOnModule maxDepth m).Ensures (Truthful m) := by
  refine Run.ensures_foldlM (Truthful m) (.refl false m) fun (modified, m') id _ hm => ?_
  refine Run.Ensures.bind (P := fun f => m'.funcs.get? id = some f) (Run.ensures_lift fun f hf =>
    ?_) fun f hf => ?_
  · exact ofOption_eq_ok.1 hf
  refine Run.ensures_after fun _ => ?_
  split
  · exact Run.ensures_pure hm
  refine Run.ensures_after fun facts => (apply_truthful facts { func := f }).bind
    fun (changed, b) hb => ?_
  refine Run.Ensures.bind (P := fun m'' => Truthful m (modified || changed, m'')) ?_ fun _ h =>
    Run.ensures_pure h
  refine Run.ensures_lift fun m'' hset hno => ?_
  obtain ⟨hno, hchanged⟩ := Bool.or_eq_false_iff.1 hno
  cases hm hno
  cases hb hchanged
  exact Module.setFunc_self hf hset

namespace Pass

/-- The pass owns up to what it changes, in a function and in a module. -/
structure Honest (p : Pass) : Prop where
  onFunc : ∀ b, (p.onFunc b).Ensures (Truthful b)
  onModule : ∀ settings m, (p.onModule settings m).Ensures (Truthful m)

theorem Honest.ofFunc {name description : String} {run : Builder → Run (Bool × Builder)}
    (h : ∀ b, (run b).Ensures (Truthful b)) : (Pass.ofFunc name description run).Honest where
  onFunc := h
  onModule _ m := onFuncs_truthful h m

theorem all_honest : ∀ p ∈ all, p.Honest := by
  simp only [all, List.forall_mem_cons, List.not_mem_nil, false_implies, implies_true, and_true]
  refine ⟨.ofFunc Promotion.run_truthful, .ofFunc ValueNumbering.run_truthful, ?_,
    .ofFunc FlowSimplification.run_truthful, .ofFunc DeadCode.run_truthful,
    .ofFunc LiveCode.run_truthful, .ofFunc StrengthReduction.run_truthful,
    .ofFunc Preheaders.run_truthful, .ofFunc PhiLowering.run_truthful, ?_⟩
  · exact ⟨ConstantPropagation.run_truthful, fun settings m =>
      ConstantPropagation.runOnModule_truthful settings.maxCallDepth m⟩
  · refine ⟨fun b => Run.ensures_pure (.refl false b), fun _ m => ?_⟩
    refine Run.ensures_after fun errors => ?_
    dsimp only
    split
    · exact Run.ensures_after fun _ => Run.ensures_pure (.refl false m)
    · exact Run.ensures_pure (.refl false m)

/-- A pass that denies a change has left the function, or the module, exactly as it was:
instructions and their operands, layout, values, names, blocks and the count of changes of the
control flow. That is so whatever the settings and whoever listens. -/
theorem unchanged_of_unmodified {p : Pass} (hp : p ∈ all) :
    (∀ b b' log log', (p.onFunc b).exec log = (.ok (false, b'), log') → b' = b) ∧
      ∀ settings m m' log log', (p.onModule settings m).exec log =
        (.ok (false, m'), log') → m' = m := by
  constructor
  · intro b b' log log' h
    exact (all_honest p hp).onFunc b log (false, b') log' h rfl
  · intro settings m m' log log' h
    exact (all_honest p hp).onModule settings m log (false, m') log' h rfl

/-- A loop that counts up to its parameter. -/
def counting : Checked Builder :=
  Func.build "count" ⟨[.int 32], some (.int 32)⟩
    [.block (some "entry"), .block (some "head"), .block (some "body"), .block (some "exit"),
      .const (.int32 0), .const (.int32 1),
      .goTo (.append ⟨0⟩), .insert (.jump .br ⟨1⟩) .void,
      .goTo (.append ⟨1⟩), .insert (.phi .phi [⟨1⟩] [⟨0⟩]) (.int 32),
      .insert (.binary .slt ⟨3⟩ ⟨0⟩) (.int 1), .insert (.branch .brCond ⟨4⟩ ⟨2⟩ ⟨3⟩) .void,
      .goTo (.append ⟨2⟩), .insert (.binary .add ⟨3⟩ ⟨2⟩) (.int 32), .insert (.jump .br ⟨1⟩) .void,
      .edge ⟨1⟩ ⟨5⟩ ⟨2⟩,
      .goTo (.append ⟨3⟩), .insert (.unary .retValue ⟨3⟩) .void]

/-- Passes that find nothing to do in the loop, alone or as part of a module. -/
theorem counting_unchanged : ∃ b, counting = .ok b ∧
    ∀ p ∈ all.filter (·.name ∈ ["ssa", "sccp", "cfs", "dce", "adce", "osr", "loop-simplify"]),
      (∃ b', (p.onFunc b).outcome = .ok (false, b') ∧ b' = b) ∧
      ∃ m', (p.onModule {} { funcs := ⟨#[some b.func]⟩ }).outcome = .ok (false, m') ∧
        m' = { funcs := ⟨#[some b.func]⟩ } := by
  obtain ⟨b, hb, h⟩ := exists_of_any (x := counting) (p := fun b =>
    (all.filter (·.name ∈ ["ssa", "sccp", "cfs", "dce", "adce", "osr", "loop-simplify"])).all
      fun p =>
      (p.onFunc b).outcome.toOption.any (·.1 == false) &&
        (p.onModule {} { funcs := ⟨#[some b.func]⟩ }).outcome.toOption.any (·.1 == false))
        (by decide +kernel)
  refine ⟨b, hb, fun p hp => ?_⟩
  obtain ⟨hfunc, hmodule⟩ := Bool.and_eq_true_iff.1 (List.all_eq_true.1 h p hp)
  obtain ⟨⟨_, b'⟩, hrun, hno⟩ := exists_of_any hfunc
  obtain ⟨⟨_, m'⟩, hrun', hno'⟩ := exists_of_any hmodule
  cases eq_of_beq hno
  cases eq_of_beq hno'
  have hsame := unchanged_of_unmodified (List.mem_filter.1 hp).1
  exact ⟨⟨b', hrun, hsame.1 b b' {} _ (Prod.ext hrun rfl)⟩,
    m', hrun', hsame.2 {} _ m' {} _ (Prod.ext hrun' rfl)⟩

end Pass

end MiddleEnd
