import MiddleEnd.Proofs.Outcome
import MiddleEnd.Transform.ValueNumbering

/-!
# Walks that number nothing

As long as a walk has found nothing redundant, it has given no number and changed nothing. If that
is so to the end, everything the walk came by is new: no instruction folds, none computes what was
available to it, and no phi merges a single value or what a phi before it merges.
-/

namespace MiddleEnd

namespace ValueNumbering

/-- No phi merges a single value apart from its own, or what is merged by one before it or by one of
those seen. -/
inductive PhisApart (b : Builder) (t : DominatorTree) :
    List (List (BlockId × ValueId) × ValueId) → List InstId → Prop where
  | nil {seen : List (List (BlockId × ValueId) × ValueId)} : PhisApart b t seen []
  | cons {seen : List (List (BlockId × ValueId) × ValueId)} {phi : InstId} {rest : List InstId}
      {r : ValueId} {inst : Inst} :
      b.flow.result phi = .ok r → b.flow.inst phi = .ok inst →
      (∀ v, (((State.phiEdges { builder := b } t inst).map (·.2)).filter (· ≠ r)).eraseDups ≠ [v]) →
      seen.lookup (State.phiEdges { builder := b } t inst) = none →
      PhisApart b t ((State.phiEdges { builder := b } t inst, r) :: seen) rest →
      PhisApart b t seen (phi :: rest)

/-- No instruction folds or computes what is available to it. The second list of expressions is what
is available in the end. -/
inductive Fresh (b : Builder) : Available → List InstId → Available → Prop where
  | nil {a : Available} : Fresh b a [] a
  | skip {a a' : Available} {i : InstId} {rest : List InstId} {inst : Inst} :
      b.flow.inst i = .ok inst →
      inst.op.isPure = false → Fresh b a rest a' → Fresh b a (i :: rest) a'
  | offer {a a' : Available} {i : InstId} {rest : List InstId} {inst : Inst} {e : Expr}
      {r : ValueId} :
      b.flow.inst i = .ok inst → inst.op.isPure = true → b.flow.fold? i = .ok none →
      Expr.of b.flow i = .ok e →
      a.lookup e = none → b.flow.result i = .ok r → Fresh b ((e, r) :: a) rest a' → Fresh b a
        (i :: rest) a'

/-- Everything is new in a block and in the blocks below it. -/
inductive Walked (b : Builder) (t : DominatorTree) : Available → BlockId → Prop where
  | block {a a' : Available} {block : BlockId} {phis insts : List InstId} {cs : List BlockId} :
      b.func.phis block = .ok phis → PhisApart b t [] phis → b.func.insts block = .ok insts →
      Fresh b a (insts.filter (!b.flow.isPhi ·)) a' → t.children block = .ok cs →
      (∀ c ∈ cs, Walked b t a' c) →
      Walked b t a block

namespace State

/-- As long as nothing was found redundant, nothing was numbered and changed, and what was found
holds. -/
def Untouched (start : Builder) (found : Prop) (s : State) : Prop :=
  s.redundant = [] → s = { builder := start } ∧ found

variable {start : Builder} {found found' : Prop} {s : State}

theorem untouched_of_redundant (h : s.redundant ≠ []) : s.Untouched start found :=
  fun hr => absurd hr h

theorem Untouched.imp (h : s.Untouched start found)
    (himp : s = { builder := start } → found → found') :
    s.Untouched start found' := fun hr => ⟨(h hr).1, himp (h hr).1 (h hr).2⟩

theorem Untouched.number (h : s.Untouched start found) (hr : s.redundant = []) (v : ValueId) :
    s.number v = v := by
  rw [(h hr).1]
  rfl

theorem merge_untouched (s : State) (i : InstId) (v : ValueId) :
    (s.merge i v).Ensures (Untouched start found) := by
  refine Run.ensures_after fun result => Run.ensures_after fun _ => ?_
  exact Run.ensures_pure (untouched_of_redundant (by simp))

theorem numberPhis_untouched {t : DominatorTree} {phis : List InstId}
    {seen : List (List (BlockId × ValueId) × ValueId)} (h : s.Untouched start found) :
    (numberPhis t seen phis s).Ensures (Untouched start (found ∧ PhisApart start t seen phis)) := by
  induction phis generalizing seen s found with
  | nil => exact Run.ensures_pure (h.imp fun _ hf => ⟨hf, .nil⟩)
  | cons phi rest ih =>
    have hmerged : ∀ {v seen'}, (s.merge phi v >>= fun s' => numberPhis t seen' rest s').Ensures
        (Untouched start (found ∧ PhisApart start t seen (phi :: rest))) := fun {v seen'} =>
      (s.merge_untouched phi v).bind fun s' h' =>
        (ih h').mono fun s'' (hs : s''.Untouched start (False ∧ _)) => hs.imp fun _ hf => hf.1.elim
    rw [numberPhis]
    refine (Run.ensures_lift fun _ hr => hr).bind fun r hr => ?_
    refine (Run.ensures_lift fun _ hi => hi).bind fun inst hi => ?_
    dsimp only
    split
    · exact hmerged
    · rename_i hone
      split
      · exact hmerged
      · rename_i hnew
        refine (ih (h.imp fun he hf => And.intro hf he)).mono fun s' hs => hs.imp fun _ hf => ?_
        obtain ⟨⟨hf, rfl⟩, hrest⟩ := hf
        exact ⟨hf, .cons hr hi hone hnew hrest⟩

theorem numberOperands_untouched (i : InstId) (h : s.Untouched start found) :
    (s.numberOperands i).Ensures (Untouched start found) := by
  refine Run.ensures_after fun inst => ?_
  refine Run.ensures_foldlM (Untouched start found) h fun s (v, n) _ h => ?_
  dsimp only
  split
  · exact Run.ensures_pure h
  · rename_i hcond
    refine Run.ensures_after fun flow =>
      Run.ensures_pure (untouched_of_redundant fun hr => hcond ?_)
    exact .inr (h.number hr v)

theorem numberInst_untouched (available : Available) (i : InstId) (h : s.Untouched start found) :
    (s.numberInst available i).Ensures fun out => out.1.Untouched start (found ∧
      ∀ {rest a'}, Fresh start out.2 rest a' → Fresh start available (i :: rest) a') := by
  have hmerged : ∀ {s v}, (State.merge s i v >>= fun s' => pure (s', available)).Ensures
      fun out : State × Available =>
      out.1.Untouched start (found ∧ ∀ {rest a'}, Fresh start out.2 rest a' →
        Fresh start available (i :: rest) a') :=
    fun {s v} => Run.Ensures.bind (P := Untouched start False) (s.merge_untouched i v) fun s' h' =>
      Run.ensures_pure (h'.imp fun _ hf => hf.elim)
  refine (numberOperands_untouched i h).bind fun s h =>
    (Run.ensures_lift fun _ hi => hi).bind fun inst hi => ?_
  split
  · rename_i hop
    refine Run.ensures_pure (h.imp ?_)
    rintro rfl hf
    exact ⟨hf, .skip hi (by simpa using hop)⟩
  rename_i hop
  refine (Run.ensures_lift fun _ hf => hf).bind fun folded hfold => ?_
  cases folded with
  | some w => exact hmerged
  | none =>
    refine (Run.ensures_lift fun _ he => he).bind fun expr he => ?_
    split
    · exact hmerged
    · rename_i hnew
      refine (Run.ensures_lift fun _ hr => hr).bind fun r hr => Run.ensures_pure (h.imp ?_)
      rintro rfl hf
      exact ⟨hf, .offer hi (by simpa using hop) hfold he hnew hr⟩

theorem numberBody_untouched {insts : List InstId} {available : Available}
    (h : s.Untouched start found) :
    (insts.foldlM (fun (r : State × Available) i => r.1.numberInst r.2 i) (s, available)).Ensures
      fun out =>
      out.1.Untouched start (found ∧ Fresh start available insts out.2) := by
  induction insts generalizing s available found with
  | nil => exact Run.ensures_pure (h.imp fun _ hf => ⟨hf, .nil⟩)
  | cons i rest ih =>
    rw [List.foldlM_cons]
    refine (numberInst_untouched available i h).bind fun out hout =>
      (ih hout).mono fun out' hout' => ?_
    exact hout'.imp fun _ hf => ⟨hf.1.1, hf.1.2 hf.2⟩

theorem fillSuccessors_untouched (b : BlockId) (h : s.Untouched start found) :
    (s.fillSuccessors b).Ensures (Untouched start found) := by
  refine Run.ensures_after fun succs => ?_
  refine Run.ensures_foldlM (Untouched start found) h fun s succ _ h =>
    Run.ensures_after fun phis => ?_
  refine Run.ensures_foldlM (Untouched start found) h fun s phi _ h =>
    Run.ensures_after fun incoming => ?_
  cases incoming with
  | none => exact Run.ensures_pure h
  | some v =>
    dsimp only
    split
    · exact Run.ensures_pure h
    · rename_i hne
      exact Run.ensures_after fun flow =>
        Run.ensures_pure (untouched_of_redundant fun hr => hne (h.number hr v))

theorem walk_untouched {t : DominatorTree} {fuel : Nat} {available : Available} {b : BlockId}
    (h : s.Untouched start found) :
    (walk t fuel available s b).Ensures (Untouched start (found ∧ Walked start t available b)) := by
  induction fuel generalizing available s b found with
  | zero => exact Run.ensures_throw _
  | succ fuel ih =>
    rw [walk]
    refine Run.ensures_after fun _ => (Run.ensures_lift fun _ hp => hp).bind fun phis hphis => ?_
    refine (numberPhis_untouched (h.imp fun he hf => And.intro hf he)).bind fun s₁ h₁ => ?_
    refine (Run.ensures_lift fun _ hx => hx).bind fun insts hinsts => ?_
    refine (numberBody_untouched (h₁.imp fun he hf => And.intro hf he)).bind fun out h₂ => ?_
    obtain ⟨s₂, available'⟩ := out
    refine (fillSuccessors_untouched b h₂).bind fun s₃ h₃ =>
      (Run.ensures_lift fun _ hc => hc).bind fun cs hcs => ?_
    have hdown : ∀ {found' : Prop} {s' : State}, s'.Untouched start found' →
        (cs.foldlM (walk t fuel available') s').Ensures (Untouched start (found' ∧
        ∀ c ∈ cs, Walked start t available' c)) := fun {found' s'} h' => by
      refine Run.ensures_foldlM_prefix (fun done s' => s'.Untouched start (found' ∧
        ∀ c ∈ done, Walked start t available' c)) (h'.imp fun _ hf => ⟨hf, by simp⟩)
        fun done c post s' _ hs' => (ih hs').mono fun s'' hs'' => ?_
      refine hs''.imp fun _ hf => ⟨hf.1.1, fun d hd => ?_⟩
      rcases List.mem_append.1 hd with hd | hd
      · exact hf.1.2 d hd
      · exact List.mem_singleton.1 hd ▸ hf.2
    refine (hdown h₃).mono fun s' hs' => hs'.imp fun _ hf => ?_
    obtain ⟨⟨⟨⟨⟨hf, rfl⟩, happart⟩, rfl⟩, hfresh⟩, hbelow⟩ := hf
    exact ⟨hf, .block hphis happart hinsts hfresh hcs hbelow⟩

end State

end ValueNumbering

end MiddleEnd
