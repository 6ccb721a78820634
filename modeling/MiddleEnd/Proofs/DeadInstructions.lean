import MiddleEnd.Proofs.Thinning
import MiddleEnd.Transform.DeadCode

/-!
# Dead instructions

An instruction is dead if it has no side effects and all users of its result are dead: the least set
of this kind, so that instructions which only feed each other are not in it. It is live if it has
side effects or a live instruction uses its result, again the least such set. Nothing is both, and
instructions on a cycle may be neither.

Whatever removes unused instructions one after the other removes dead ones only, and is done with
all of them once no instruction is unused. So the order in which they go makes no difference.
-/

namespace MiddleEnd

namespace Func

/-- The second instruction has the result of the first one among its operands. -/
def Feeds (f : Func) (i j : InstId) : Prop :=
  ∃ v inst, f.flow.result? i = some v ∧ f.flow.inst? j = some inst ∧ v ∈ inst.args

/-- The instruction is there and has no side effects. -/
def Effectless (f : Func) (i : InstId) : Prop :=
  ∃ inst, f.flow.inst? i = some inst ∧ inst.op.hasSideEffects = false

/-- No side effects, and nothing but dead instructions for users. -/
inductive Dead (f : Func) : InstId → Prop where
  | intro {i : InstId} (effectless : f.Effectless i) (users : ∀ j, f.Feeds i j → f.Dead j) :
      f.Dead i

/-- Side effects, or a live user. -/
inductive Live (f : Func) : InstId → Prop where
  | effect {i : InstId} {inst : Inst} (hi : f.flow.inst? i = some inst)
      (he : inst.op.hasSideEffects = true) : f.Live i
  | feeds {i j : InstId} (h : f.Feeds i j) (hj : f.Live j) : f.Live i

def Unused (f : Func) (i : InstId) : Prop := f.Effectless i ∧ ∀ j, ¬ f.Feeds i j

variable {f f' : Func} {D : List InstId} {i j : InstId}

theorem Dead.least {S : InstId → Prop} (hS : ∀ {i}, f.Effectless i → (∀ j, f.Feeds i j → S j) → S i)
    (h : f.Dead i) :
    S i := by
  induction h with
  | intro he _ ih => exact hS he ih

theorem Feeds.inst (h : f.Feeds i j) : ∃ inst, f.flow.inst? i = some inst := by
  obtain ⟨v, _, hv, _, _⟩ := h
  exact DataFlow.hasInst_of_result hv

theorem Live.inst (h : f.Live i) : ∃ inst, f.flow.inst? i = some inst := by
  cases h with
  | effect hi _ => exact ⟨_, hi⟩
  | feeds h _ => exact h.inst

theorem effectless_of_not_live {inst : Inst} (hi : f.flow.inst? i = some inst) (h : ¬ f.Live i) :
    f.Effectless i :=
  ⟨inst, hi, Bool.eq_false_iff.2 fun he => h (.effect hi he)⟩

theorem Dead.not_live (h : f.Dead i) : ¬ f.Live i := by
  refine h.least (S := fun i => ¬ f.Live i) fun {i} heff hrest hlive => ?_
  cases hlive with
  | effect hi he =>
    obtain ⟨inst, hi', he'⟩ := heff
    cases hi.symm.trans hi'
    rw [he] at he'
    cases he'
  | feeds hfeeds hj => exact hrest _ hfeeds hj

theorem Effectless.isTerminator (h : f.Effectless i) : f.flow.isTerminator i = false := by
  obtain ⟨inst, hi, he⟩ := h
  rw [DataFlow.isTerminator_of_inst hi, ← Bool.not_eq_true]
  intro hterm
  rw [Opcode.hasSideEffects_of_terminator hterm] at he
  cases he

theorem unused_iff {inst : Inst} (hi : f.flow.inst? i = some inst) :
    f.Unused i ↔ inst.op.hasSideEffects = false ∧
      ∀ v, f.flow.result? i = some v → ∀ j jnst, f.flow.inst? j = some jnst → v ∉ jnst.args := by
  constructor
  · rintro ⟨⟨inst', hi', he⟩, hfree⟩
    cases hi.symm.trans hi'
    exact ⟨he, fun v hv j jnst hj hmem => hfree j ⟨v, jnst, hv, hj, hmem⟩⟩
  · rintro ⟨he, hfree⟩
    refine ⟨⟨inst, hi, he⟩, ?_⟩
    rintro j ⟨v, jnst, hv, hj, hmem⟩
    exact hfree v hv j jnst hj hmem

theorem Coherent.isDead_ok (h : f.Coherent) {inst : Inst} (hi : f.flow.inst? i = some inst) :
    ∃ dead, f.isDead i = .ok dead ∧ (dead = true ↔ f.Unused i) := by
  unfold isDead
  rw [DataFlow.inst_eq_ok.2 hi, ok_bind, unused_iff hi]
  cases heff : inst.op.hasSideEffects with
  | true => exact ⟨false, rfl, by simp⟩
  | false =>
    cases hr : f.flow.result? i with
    | none => exact ⟨true, rfl, by simp⟩
    | some v =>
      obtain ⟨ty, ho, -⟩ := h.flow.result_origin hr
      obtain ⟨used, hused, hiff⟩ := h.flow.hasUsers_ok ho
      refine ⟨!used, by simp [hused], ?_⟩
      rw [Bool.not_eq_true', ← Bool.not_eq_true, hiff]
      simp

theorem Coherent.unused_of_isDead (h : f.Coherent) {inst : Inst} (hi : f.flow.inst? i = some inst)
    (hdead : f.isDead i = .ok true) : f.Unused i := by
  obtain ⟨dead, hdead', hiff⟩ := h.isDead_ok hi
  cases hdead'.symm.trans hdead
  exact hiff.1 rfl

theorem isDead_of_absent (h : f.flow.inst? i = none) : ¬ f.Unused i := by
  rintro ⟨⟨inst, hi, -⟩, -⟩
  rw [h] at hi
  cases hi

theorem Coherent.definer?_ok (h : f.Coherent) {v : ValueId} {o : ValueDef}
    (ho : f.flow.origin? v = some o) :
    ∃ j?, f.flow.definer? v = .ok j? ∧ ∀ j, j? = some j ↔ f.flow.result? j = some v := by
  have hother : (∀ ty k, o ≠ .result ty k) → ∀ j, f.flow.result? j ≠ some v := by
    intro hne j hj
    obtain ⟨ty, ho', -⟩ := h.flow.result_origin hj
    exact hne ty j (Option.some.inj (ho.symm.trans ho'))
  rw [DataFlow.definer?, DataFlow.origin_eq_ok.2 ho, ok_bind]
  cases o with
  | result ty k =>
    refine ⟨some k, rfl, fun j => ⟨fun hj => ?_, fun hj => ?_⟩⟩
    · cases hj
      exact h.flow.origin_result ho
    · rw [h.flow.definer_eq hj ho]
  | _ =>
    refine ⟨none, rfl, fun j => ⟨fun hj => ?_, fun hj => absurd hj (hother (fun ty k he => ?_) j)⟩⟩
    · cases hj
    · cases he

theorem Coherent.definers_ok (h : f.Coherent) {inst : Inst} (hi : f.flow.inst? i = some inst) :
    ∃ js, f.flow.definers inst.args = .ok js ∧ js.length ≤ inst.args.length ∧ ∀ j, j ∈ js ↔
      f.Feeds j i := by
  have hdefiner : ∀ v ∈ inst.args, ∃ j?, f.flow.definer? v = .ok j? ∧ ∀ j, j? = some j ↔
      f.flow.result? j = some v :=
    fun v hv => (h.flow.operand hi hv).elim fun o ho => h.definer?_ok ho
  obtain ⟨js, hjs⟩ := mapM_exists fun v hv => (hdefiner v hv).imp fun _ hj => hj.1
  refine ⟨js.filterMap id, by rw [DataFlow.definers, hjs, ok_bind], ?_, fun j => ?_⟩
  · exact Nat.le_trans (List.length_filterMap_le ..) (Nat.le_of_eq (mapM_ok_length hjs))
  · simp only [List.mem_filterMap, id_eq, exists_eq_right]
    constructor
    · intro hj
      obtain ⟨n, hn, hjn⟩ := List.getElem_of_mem hj
      obtain ⟨v, hv, hd⟩ := mapM_ok_getElem? hjs (hjn ▸ List.getElem?_eq_getElem hn)
      obtain ⟨j?, hj?, hres⟩ := hdefiner v (List.mem_of_getElem? hv)
      cases hd.symm.trans hj?
      exact ⟨v, inst, (hres j).1 rfl, hi, List.mem_of_getElem? hv⟩
    · rintro ⟨v, inst', hv, hi', hmem⟩
      cases hi.symm.trans hi'
      obtain ⟨j?, hj?, hd⟩ := mapM_ok_forall hjs v hmem
      obtain ⟨j?', hj?', hres⟩ := hdefiner v hmem
      cases hd.symm.trans hj?'
      rw [← (hres j).2 hv]
      exact hj?

/-- Every call names a function that was imported. -/
def CalleesKnown (f : Func) : Prop :=
  ∀ {i inst callee}, f.flow.inst? i = some inst → inst.callee? = some callee →
    ∃ target, f.flow.imports.get? callee = some target

theorem Coherent.instText_ok (h : f.Coherent) (hk : f.CalleesKnown) {inst : Inst}
    (hi : f.flow.inst? i = some inst) :
    ∃ text, f.instText i = .ok text := by
  refine instText_of_known hi (hk hi) fun hr => ?_
  obtain ⟨ty, ho, -⟩ := h.flow.result_origin hr
  exact ⟨_, ho⟩

theorem Thinned.calleesKnown (h : f.Thinned f' D) (hk : f.CalleesKnown) : f'.CalleesKnown := by
  intro i inst callee hi hcallee
  rw [h.imports]
  exact hk (h.inst_of hi).2 hcallee

theorem Thinned.effectless_iff (h : f.Thinned f' D) : f'.Effectless i ↔ i ∉ D ∧ f.Effectless i := by
  unfold Effectless
  rw [h.inst?]
  by_cases hi : i ∈ D <;> simp [hi]

theorem Thinned.feeds_iff (h : f.Thinned f' D) : f'.Feeds i j ↔ i ∉ D ∧ j ∉ D ∧ f.Feeds i j := by
  unfold Feeds
  rw [h.inst?, h.result?]
  by_cases hi : i ∈ D <;> by_cases hj : j ∈ D <;> simp [hi, hj]

theorem Thinned.dead_of_unused (h : f.Thinned f' D) (hD : ∀ i ∈ D, f.Dead i) (hi : f'.Unused i) :
    i ∉ D ∧ f.Dead i := by
  obtain ⟨hiD, heff⟩ := h.effectless_iff.1 hi.1
  refine ⟨hiD, .intro heff fun j hj => ?_⟩
  by_cases hjD : j ∈ D
  · exact hD j hjD
  · exact absurd (h.feeds_iff.2 ⟨hiD, hjD, hj⟩) (hi.2 j)

theorem Thinned.mem_of_dead (h : f.Thinned f' D) (hnone : ∀ i, ¬ f'.Unused i) (hi : f.Dead i) :
    i ∈ D := by
  refine hi.least fun {i} heff hrest => Decidable.byContradiction fun hiD => hnone i ?_
  refine ⟨h.effectless_iff.2 ⟨hiD, heff⟩, fun j hj => ?_⟩
  obtain ⟨-, hjD, hfeeds⟩ := h.feeds_iff.1 hj
  exact hjD (hrest j hfeeds)

theorem Thinned.unused_or (h : f.Thinned f' [j]) (hi : f'.Unused i) :
    i ≠ j ∧ (f.Unused i ∨ f.Feeds i j) := by
  obtain ⟨hij, heff⟩ := h.effectless_iff.1 hi.1
  rw [List.mem_singleton] at hij
  refine ⟨hij, ?_⟩
  by_cases hfeeds : f.Feeds i j
  · exact .inr hfeeds
  refine .inl ⟨heff, fun k hk => ?_⟩
  by_cases hkj : k = j
  · exact hfeeds (hkj ▸ hk)
  · exact hi.2 k (h.feeds_iff.2 ⟨by simpa using hij, by simpa using hkj, hk⟩)

/-- The second function is the first one without the instructions of a kind. -/
def Shed (f f' : Func) (P : InstId → Prop) : Prop := ∃ D, f.Thinned f' D ∧ ∀ i, i ∈ D ↔ P i

/-- Both functions have the same instructions with the same operands and results in the same
places. -/
structure SameCode (f f' : Func) : Prop where
  layout : f'.layout = f.layout
  inst? : ∀ i, f'.flow.inst? i = f.flow.inst? i
  result? : ∀ i, f'.flow.result? i = f.flow.result? i

theorem Shed.sameCode {g g' : Func} {P : InstId → Prop} (h : f.Shed g P) (h' : f.Shed g' P)
    (hc : g.Coherent) :
    g.SameCode g' := by
  obtain ⟨D, ht, hD⟩ := h
  obtain ⟨D', ht', hD'⟩ := h'
  have hmem : ∀ i, i ∈ D' ↔ i ∈ D := fun i => (hD' i).trans (hD i).symm
  have hblocks := ht'.alike.blocks.trans ht.alike.blocks.symm
  refine ⟨Layout.ext_insts hc.layout.blocks_nodup hblocks fun b => ?_, fun i => ?_, fun i => ?_⟩
  · show g'.insts b = g.insts b
    rw [ht'.insts, ht.insts]
    simp only [hmem]
  · rw [ht'.inst?, ht.inst?]
    simp only [hmem]
  · rw [ht'.result?, ht.result?]
    simp only [hmem]

/-- The second function is the first one without some dead instructions, and what is unused now
waits for its turn. -/
structure Swept (f f' : Func) (D : List InstId) (waits : InstId → Prop) : Prop where
  coherent : f'.Coherent
  thinned : f.Thinned f' D
  dead : ∀ i ∈ D, f.Dead i
  unused : ∀ {i}, f'.Unused i → waits i

variable {W W' : InstId → Prop}

theorem Coherent.swept (h : f.Coherent) : f.Swept f [] f.Unused where
  coherent := h
  thinned := .refl f
  dead _ hi := absurd hi List.not_mem_nil
  unused := id

theorem Swept.mono (h : f.Swept f' D W) (imp : ∀ i, f'.Unused i → W i → W' i) : f.Swept f' D W' :=
  { h with unused := fun hi => imp _ hi (h.unused hi) }

theorem Swept.calleesKnown (h : f.Swept f' D W) (hk : f.CalleesKnown) : f'.CalleesKnown :=
  h.thinned.calleesKnown hk

theorem Swept.mem_iff (h : f.Swept f' D W) (hnone : ∀ i, ¬ W i) : i ∈ D ↔ f.Dead i :=
  ⟨h.dead i, h.thinned.mem_of_dead fun j hj => hnone j (h.unused hj)⟩

theorem Swept.shed (h : f.Swept f' D W) (hnone : ∀ i, ¬ W i) : f.Shed f' f.Dead :=
  ⟨D, h.thinned, fun _ => h.mem_iff hnone⟩

theorem Swept.ne_nil_iff (h : f.Swept f' D W) (hnone : ∀ i, ¬ W i) : D ≠ [] ↔ ∃ i, f.Dead i := by
  constructor
  · intro hne
    obtain ⟨i, hi⟩ := List.exists_mem_of_ne_nil D hne
    exact ⟨i, h.dead i hi⟩
  · rintro ⟨i, hi⟩
    exact List.ne_nil_of_mem ((h.mem_iff hnone).2 hi)

theorem Swept.remove {b : Builder} (h : f.Swept b.func D W) (hu : b.func.Unused i) :
    ∃ c, b.removeInst i = .ok c ∧ f.Swept c.func (D ++ [i])
      (fun j => j ≠ i ∧ (W j ∨ b.func.Feeds j i)) ∧ DataFlow.Shrunk b.flow c.flow i := by
  obtain ⟨hiD, hdead⟩ := h.thinned.dead_of_unused h.dead hu
  obtain ⟨inst, hi, -⟩ := hu.1
  obtain ⟨c, hc, hcoh, hs, halike, hl⟩ :=
    Builder.removeInst_ok h.coherent hi fun v hv j jnst hj hmem =>
      hu.2 j ⟨v, jnst, hv, hj, hmem⟩
  have hone : b.func.Thinned c.func [i] := (Thinned.refl _).shrink List.not_mem_nil hs halike hl
  refine ⟨c, hc, ⟨hcoh, h.thinned.shrink hiD hs halike hl, fun j hj => ?_, fun {j} hj => ?_⟩, hs⟩
  · rcases List.mem_append.1 hj with hj | hj
    · exact h.dead j hj
    · rw [List.mem_singleton.1 hj]
      exact hdead
  · obtain ⟨hne, hor⟩ := hone.unused_or hj
    exact ⟨hne, hor.imp h.unused id⟩

end Func

end MiddleEnd
