import MiddleEnd.Proofs.Outcome
import MiddleEnd.Transform.FlowSimplification

/-!
# Simplified control flow

Every step of the simplification goes over the whole function. If it reports no change, it has
changed nothing, and wherever it looked there was nothing to do.
-/

namespace MiddleEnd

namespace FlowSimplification

def Undecided (b : Builder) (block : BlockId) : Prop :=
  ∀ ⦃term inst⦄, b.func.terminator? block = .ok (some term) → b.flow.inst term = .ok inst →
    inst.op = .brCond →
    decided? b.flow inst = .ok none

/-- The instruction is gone, or it merges several values apart from its own. -/
def Merging (b : Builder) (phi : InstId) : Prop :=
  b.flow.hasInst phi = true → ∃ r inst, b.flow.result phi = .ok r ∧ b.flow.inst phi = .ok inst ∧
    TrivialPhi.substitute? b.flow r inst.args = .ok none

/-- There is nothing left to simplify. -/
structure Settled (b : Builder) : Prop where
  undecided : ∀ block ∈ b.func.blocks, Undecided b block
  reached : unreachable b.func = .ok []
  merging : ∀ phi ∈ b.func.allPhis, Merging b phi
  apart : ∀ {entry}, b.func.entry = .ok entry → ∀ block ∈ b.func.blocks, block ≠ entry →
    mergeTarget? b.func block = .ok none

theorem foldBranches_settles (b : Builder) :
    (foldBranches b).Ensures fun r => r.1 = false → r.2 = b ∧ ∀ block ∈ b.func.blocks,
      Undecided b block := by
  refine Run.ensures_foldlM_prefix (fun done (r : Bool × Builder) => r.1 = false → r.2 = b ∧
    ∀ block ∈ done, Undecided b block) (fun _ => ⟨rfl, by simp⟩) ?_
  rintro done block post ⟨modified, c⟩ - h
  -- A block that is passed over joins those that are undecided.
  have hskip : (c = b → Undecided b block) →
      (pure (modified, c) : Run (Bool × Builder)).Ensures fun r =>
      r.1 = false → r.2 = b ∧ ∀ d ∈ done ++ [block], Undecided b d :=
        fun hu => Run.ensures_pure fun hm => by
    obtain ⟨hc, hdone⟩ := h hm
    refine ⟨hc, fun d hd => ?_⟩
    rcases List.mem_append.1 hd with hd | hd
    · exact hdone d hd
    · exact List.mem_singleton.1 hd ▸ hu hc
  refine (Run.ensures_lift fun _ ht => ht).bind fun term? hterm => ?_
  cases term? with
  | none =>
    refine hskip fun hc term inst ht _ _ => ?_
    rw [hc, ht] at hterm
    cases hterm
  | some term =>
    refine (Run.ensures_lift fun _ hi => hi).bind fun inst hinst => ?_
    have hsame : ∀ {term' inst'}, c = b → b.func.terminator? block = .ok (some term') →
        b.flow.inst term' = .ok inst' →
        inst' = inst := by
      intro term' inst' hc ht hi
      rw [hc, ht] at hterm
      cases hterm
      rw [hc, hi] at hinst
      exact Except.ok.inj hinst
    split
    · rename_i hop
      exact hskip fun hc term' inst' ht hi hop' => absurd (hsame hc ht hi ▸ hop') hop
    refine (Run.ensures_lift fun _ hd => hd).bind fun way hdec => ?_
    cases way with
    | none =>
      refine hskip fun hc term' inst' ht hi _ => ?_
      rw [hsame hc ht hi, ← hc]
      exact hdec
    | some way => exact Run.ensures_after fun c' => Run.ensures_pure (by simp)

theorem removeUnreachable_settles (b : Builder) :
    (removeUnreachable b).Ensures fun r => r.1 = false → r.2 = b ∧ unreachable b.func = .ok [] := by
  refine (Run.ensures_lift fun _ hd => hd).bind fun dead hdead => ?_
  split
  · rename_i hnone
    rw [List.isEmpty_iff.1 hnone] at hdead
    exact Run.ensures_pure fun _ => ⟨rfl, hdead⟩
  · exact Run.ensures_after fun _ => Run.ensures_after fun b' => Run.ensures_pure (by simp)

theorem removeFrom_settles (start : Builder) {fuel count : Nat} {work : List InstId} {b : Builder}
    (h : count = 0 → b = start) : (TrivialPhi.removeFrom fuel count work b).Ensures fun r =>
      count ≤ r.1 ∧ (r.1 = 0 → r.2 = start ∧ ∀ phi ∈ work, Merging start phi) := by
  induction fuel generalizing count work b with
  | zero =>
    cases work with
    | nil => exact Run.ensures_pure ⟨Nat.le_refl _, fun hc => ⟨h hc, by simp⟩⟩
    | cons phi rest => exact Run.ensures_throw _
  | succ fuel ih =>
    cases work with
    | nil => exact Run.ensures_pure ⟨Nat.le_refl _, fun hc => ⟨h hc, by simp⟩⟩
    | cons phi rest =>
      have hkeep : (b = start → Merging start phi) →
          (TrivialPhi.removeFrom fuel count rest b).Ensures fun r =>
          count ≤ r.1 ∧ (r.1 = 0 → r.2 = start ∧ ∀ i ∈ phi :: rest, Merging start i) := fun hm =>
        (ih h).mono fun r hr => ⟨hr.1, fun hzero => ⟨(hr.2 hzero).1,
          List.forall_mem_cons.2 ⟨hm (h (by omega)), (hr.2 hzero).2⟩⟩⟩
      rw [TrivialPhi.removeFrom]
      split
      · rename_i hgone
        refine hkeep fun he hhas => ?_
        rw [he, hhas] at hgone
        cases hgone
      refine (Run.ensures_lift fun _ hr => hr).bind fun r hr => ?_
      refine (Run.ensures_lift fun _ hi => hi).bind fun inst hi => ?_
      refine (Run.ensures_lift fun _ hs => hs).bind fun substitute hs => ?_
      cases substitute with
      | none =>
        refine hkeep fun he _ => ?_
        subst he
        exact ⟨r, inst, hr, hi, hs⟩
      | some replaced =>
        have hmore : count + 1 = 0 → ∀ b', b' = start :=
          fun hzero => absurd hzero (Nat.succ_ne_zero count)
        refine Run.ensures_after fun _ => Run.ensures_after fun _ => Run.ensures_after fun _ =>
          Run.ensures_after fun b' => (ih fun hzero => hmore hzero b').mono fun r hr => ?_
        exact ⟨by omega, fun hzero => by omega⟩

theorem simplifyPhis_settles (b : Builder) :
    (simplifyPhis b).Ensures fun r => r.1 = false → r.2 = b ∧ ∀ phi ∈ b.func.allPhis,
      Merging b phi := by
  refine (removeFrom_settles b fun _ => rfl).bind fun r hr => Run.ensures_pure fun hcount => ?_
  obtain ⟨count, b'⟩ := r
  have hzero : count = 0 := by
    have : ¬ 0 < count := of_decide_eq_false hcount
    omega
  exact ⟨(hr.2 hzero).1, fun phi hphi => (hr.2 hzero).2 phi (List.mem_reverse.2 hphi)⟩

theorem mergeBlocks_settles (b : Builder) :
    (mergeBlocks b).Ensures fun r => r.1 = false → r.2 = b ∧ ∀ {entry}, b.func.entry = .ok entry →
      ∀ block ∈ b.func.blocks, block ≠ entry → mergeTarget? b.func block = .ok none := by
  refine (Run.ensures_lift fun _ he => he).bind fun entry hentry => ?_
  refine (Run.ensures_foldlM_prefix (fun done (r : Bool × Builder) => r.1 = false → r.2 = b ∧
    ∀ block ∈ done, mergeTarget? b.func block = .ok none) (fun _ => ⟨rfl, by simp⟩) ?_).mono ?_
  · rintro done block post ⟨modified, c⟩ - h
    refine (Run.ensures_lift fun _ ht => ht).bind fun target htarget => ?_
    cases target with
    | none =>
      refine Run.ensures_pure fun hm => ?_
      obtain ⟨rfl, hdone⟩ := h hm
      refine ⟨rfl, fun d hd => ?_⟩
      rcases List.mem_append.1 hd with hd | hd
      · exact hdone d hd
      · exact List.mem_singleton.1 hd ▸ htarget
    | some target => exact Run.ensures_after fun c' => Run.ensures_pure (by simp)
  · intro r hr hm
    refine ⟨(hr hm).1, fun {entry'} he block hblock hne => (hr hm).2 block ?_⟩
    rw [hentry] at he
    cases he
    exact List.mem_filter.2 ⟨hblock, by simpa using hne⟩

theorem step_settles (b : Builder) :
    (step b).Ensures fun r => r.1 = false → r.2 = b ∧ Settled b := by
  refine (foldBranches_settles b).bind fun r₁ h₁ => ?_
  obtain ⟨folded, b₁⟩ := r₁
  refine (removeUnreachable_settles b₁).bind fun r₂ h₂ => ?_
  obtain ⟨removed, b₂⟩ := r₂
  refine (simplifyPhis_settles b₂).bind fun r₃ h₃ => ?_
  obtain ⟨simplified, b₃⟩ := r₃
  refine (mergeBlocks_settles b₃).bind fun r₄ h₄ => ?_
  obtain ⟨merged, b₄⟩ := r₄
  refine Run.ensures_pure fun hm => ?_
  simp only [Bool.or_eq_false_iff] at hm
  obtain ⟨⟨⟨hm₁, hm₂⟩, hm₃⟩, hm₄⟩ := hm
  obtain ⟨rfl, hundecided⟩ := h₁ hm₁
  obtain ⟨rfl, hreached⟩ := h₂ hm₂
  obtain ⟨rfl, hmerging⟩ := h₃ hm₃
  obtain ⟨rfl, hapart⟩ := h₄ hm₄
  exact ⟨rfl, hundecided, hreached, hmerging, hapart⟩

end FlowSimplification

end MiddleEnd
