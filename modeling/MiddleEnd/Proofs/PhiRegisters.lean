import MiddleEnd.Proofs.ChangeSequences
import MiddleEnd.Proofs.EdgeSplitting
import MiddleEnd.Proofs.ParallelCopies
import MiddleEnd.Proofs.Substitution

/-!
# Registers in place of phis

Every phi gets a register of its own. The blocks that the phis name copy to the registers in front
of their terminators, in an order that has the effect of all copies at once, and each phi goes once
its register is read in its place. What comes of a function is told exactly: no instruction other
than phis and copies is added, taken away or changed but for its operands.
-/

namespace MiddleEnd

namespace Dict

variable {κ α : Type} [DecidableEq κ] {d : Dict κ α} {k : κ} {a : α}

theorem mem_insert {p : κ × α} (h : p ∈ (d.insert k a).entries) : p = (k, a) ∨ p ∈ d.entries := by
  unfold Dict.insert at h
  dsimp only at h
  generalize d.entries = xs at h ⊢
  induction xs with
  | nil => exact .inl (List.mem_singleton.1 h)
  | cons x xs ih =>
    obtain ⟨k', a'⟩ := x
    unfold Dict.write at h
    split at h
    · rcases List.mem_cons.1 h with h | h
      · exact .inl h
      · exact .inr (List.mem_cons_of_mem _ h)
    · rcases List.mem_cons.1 h with rfl | h
      · exact .inr List.mem_cons_self
      · exact (ih h).imp_right (List.mem_cons_of_mem _)

theorem keys_nodup_insert (h : d.keys.Nodup) : (d.insert k a).keys.Nodup := by
  unfold Dict.keys Dict.insert at *
  dsimp only
  generalize d.entries = xs at h ⊢
  induction xs with
  | nil => exact List.nodup_singleton k
  | cons x xs ih =>
    obtain ⟨k', a'⟩ := x
    rw [List.map_cons, List.nodup_cons] at h
    unfold Dict.write
    split
    · rename_i hk
      rw [List.map_cons, List.nodup_cons]
      exact hk ▸ h
    · rename_i hk
      rw [List.map_cons, List.nodup_cons]
      refine ⟨fun hm => ?_, ih h.2⟩
      obtain ⟨p, hp, hpk⟩ := List.mem_map.1 hm
      rcases mem_insert (d := ⟨xs⟩) hp with rfl | hp
      · exact hk hpk.symm
      · exact h.1 (List.mem_map.2 ⟨p, hp, hpk⟩)

theorem get?_of_mem (h : d.keys.Nodup) (hp : (k, a) ∈ d.entries) : d.get? k = some a := by
  unfold Dict.keys at h
  unfold Dict.get?
  generalize d.entries = xs at h hp ⊢
  induction xs with
  | nil => cases hp
  | cons x xs ih =>
    obtain ⟨k', a'⟩ := x
    rw [List.map_cons, List.nodup_cons] at h
    unfold Dict.find
    rcases List.mem_cons.1 hp with he | hp
    · cases he
      exact if_pos rfl
    · rw [if_neg fun hk => h.1 (List.mem_map.2 ⟨_, hp, hk.symm⟩)]
      exact ih h.2 hp

end Dict

namespace DataFlow

/-- The second graph has the instructions of the first one and all its values, perhaps with other
names. -/
structure Enriched (g g' : DataFlow) : Prop where
  exact : g'.Exact
  insts : g'.insts = g.insts
  params : g'.params = g.params
  imports : g'.imports = g.imports
  origin? : ∀ {v o}, g.origin? v = some o → g'.origin? v = some o

namespace Enriched

variable {g g' g'' : DataFlow}

theorem refl (hg : g.Exact) : g.Enriched g := ⟨hg, rfl, rfl, rfl, fun h => h⟩

theorem trans (h : g.Enriched g') (h' : g'.Enriched g'') : g.Enriched g'' :=
  ⟨h'.exact, h'.insts.trans h.insts, h'.params.trans h.params, h'.imports.trans h.imports,
    fun hv => h'.origin? (h.origin? hv)⟩

theorem inst? (h : g.Enriched g') (i : InstId) : g'.inst? i = g.inst? i := by
  unfold DataFlow.inst?
  rw [h.insts]

theorem result? (h : g.Enriched g') (i : InstId) : g'.result? i = g.result? i := by
  unfold DataFlow.result?
  rw [h.insts]

theorem addReg (hg : g.Exact) (ty : Ty) : g.Enriched (g.addReg ty).2 where
  exact := Change.apply_exact hg (c := .addReg ty) rfl rfl
  insts := rfl
  params := rfl
  imports := rfl
  origin? := origin?_addValue_of_some _

theorem setName (hg : g.Exact) (v : ValueId) (name : String) : g.Enriched (g.setName v name) where
  exact := Change.apply_exact hg (c := .setName v name) rfl rfl
  insts := (clearName_spec g v).1
  params := (clearName_spec g v).2.2.1
  imports := (clearName_spec g v).2.2.2.1
  origin? := by
    intro w o hw
    show ((g.clearName v).2.values.get? w).map (·.origin) = some o
    rw [(clearName_spec g v).2.1]
    exact hw

end Enriched

theorem origin?_addReg (g : DataFlow) (ty : Ty) :
    (g.addReg ty).2.origin? (g.addReg ty).1 = some (.reg ty) :=
  (origin?_addValue g _ _).trans (if_pos rfl)

theorem addReg_new (g : DataFlow) (ty : Ty) : g.origin? (g.addReg ty).1 = none := by
  unfold DataFlow.origin?
  rw [Table.get?_ge_bound (Nat.le_refl _)]
  rfl

def Keeps (g g' : DataFlow) : Prop := ∀ v o, g.origin? v = some o → g'.origin? v = some o

def KeepsRegs (g g' : DataFlow) : Prop :=
  ∀ r ty, g.origin? r = some (.reg ty) → g'.origin? r = some (.reg ty)

section Keeps

variable {g g' g'' : DataFlow}

theorem Keeps.refl (g : DataFlow) : g.Keeps g := fun _ _ hv => hv

theorem Keeps.trans (h : g.Keeps g') (h' : g'.Keeps g'') : g.Keeps g'' :=
  fun v o hv => h' v o (h v o hv)

theorem Enriched.keeps (h : g.Enriched g') : g.Keeps g' := fun _ _ hv => h.origin? hv

theorem Keeps.regs (h : g.Keeps g') : g.KeepsRegs g' := fun _ _ hr => h _ _ hr

theorem KeepsRegs.trans (h : g.KeepsRegs g') (h' : g'.KeepsRegs g'') : g.KeepsRegs g'' :=
  fun r ty hr => h' r ty (h r ty hr)

theorem Keeps.new (h : g.Keeps g') {v : ValueId} (hv : g'.origin? v = none) :
    g.origin? v = none := by
  cases ho : g.origin? v with
  | none => rfl
  | some o =>
    rw [h v o ho] at hv
    cases hv

end Keeps

end DataFlow

theorem Func.Coherent.enrich {f : Func} (h : f.Coherent) {g : DataFlow} (hg : f.flow.Enriched g) :
    ({ f with flow := g } : Func).Coherent where
  flow := hg.exact
  layout := h.layout
  placed i := by
    rw [h.placed]
    show _ ↔ ∃ inst, g.inst? i = some inst
    rw [hg.inst?]
  known := h.known

namespace PhiLowering

open DataFlow (Enriched Keeps KeepsRegs)
open Func (Leads)
open ParallelCopy (Sequenced)

/-- The targets of the copies are registers, and the sources exist. -/
def Available (g : DataFlow) (copies : List (ValueId × ValueId)) : Prop :=
  ∀ c ∈ copies, (∃ ty, g.origin? c.1 = some (.reg ty)) ∧ ∃ o, g.origin? c.2 = some o

theorem Available.mono {g g' : DataFlow} {copies : List (ValueId × ValueId)}
    (h : Available g copies) (hg : g.Keeps g') : Available g' copies := by
  intro p hp
  obtain ⟨⟨ty, ho⟩, o, ho'⟩ := h p hp
  exact ⟨⟨ty, hg _ _ ho⟩, o, hg _ _ ho'⟩

/-- The first value is a new register of the type of the second one, which is a register too. -/
structure Spare (g g' : DataFlow) (t x : ValueId) : Prop where
  new : g.origin? t = none
  kind : ∃ ty, g'.origin? x = some (.reg ty) ∧ g'.origin? t = some (.reg ty)

/-- The copies of the second list do those of the first one in an order, with new registers on the
way. -/
def Arranged (g g' : DataFlow) (copies seq : List (ValueId × ValueId)) : Prop :=
  ∃ saves, Sequenced (ParallelCopy.moves copies) saves seq ∧ ∀ p ∈ saves, Spare g g' p.1 p.2

theorem temporary_ok {g : DataFlow} (hg : g.Exact) {x : ValueId} {o : ValueDef}
    (hx : g.origin? x = some o) :
    ∃ t g', (temporary x).run g = .ok (t, g') ∧ g.Enriched g' ∧ g.origin? t = none ∧
      g'.origin? t = some (.reg o.ty) := by
  refine ⟨(g.addReg o.ty).1, (g.addReg o.ty).2, ?_, .addReg hg o.ty, DataFlow.addReg_new g o.ty,
    DataFlow.origin?_addReg g o.ty⟩
  simp only [temporary, StateT.run_bind, StateT.run_get, StateT.run_monadLift, StateT.run_set,
    StateT.run_pure, pure_bind, DataFlow.ty_of_origin hx]
  rfl

theorem temporaries_new {xs ts : List ValueId} {g g' : DataFlow} (hg : g.Exact)
    (h : (xs.mapM temporary).run g = .ok (ts, g')) : g.Enriched g' ∧ List.Forall₂ (fun t x =>
      g.origin? t = none ∧ ∃ o, g'.origin? x = some o ∧ g'.origin? t = some (.reg o.ty)) ts xs := by
  induction xs generalizing g ts with
  | nil =>
    cases h
    exact ⟨.refl hg, .nil⟩
  | cons x xs ih =>
    rw [List.mapM_cons, StateT.run_bind] at h
    obtain ⟨⟨t, g₁⟩, htemp, h⟩ := bind_eq_ok.1 h
    rw [StateT.run_bind] at h
    obtain ⟨⟨ts', g₂⟩, htemps, h⟩ := bind_eq_ok.1 h
    cases h
    have hask : ∃ o, g.origin? x = some o := by
      simp only [temporary, StateT.run_bind, StateT.run_get, StateT.run_monadLift,
        pure_bind] at htemp
      obtain ⟨⟨ty, g₀⟩, hty, -⟩ := bind_eq_ok.1 htemp
      obtain ⟨ty', hty, -⟩ := bind_eq_ok.1 hty
      obtain ⟨o, ho, -⟩ := DataFlow.ty_eq_ok.1 hty
      exact ⟨o, ho⟩
    obtain ⟨o, ho⟩ := hask
    obtain ⟨t', g₁', hrun, hg₁, hnew, hreg⟩ := temporary_ok hg ho
    cases htemp.symm.trans hrun
    obtain ⟨hg₂, hrest⟩ := ih hg₁.exact htemps
    refine ⟨hg₁.trans hg₂, .cons ⟨hnew, o, hg₂.origin? (hg₁.origin? ho),
      hg₂.origin? hreg⟩ (hrest.imp ?_)⟩
    exact fun t x hs => ⟨hg₁.keeps.new hs.1, hs.2⟩

/-- Copies to registers can be put into an order. -/
theorem order_runs {g : DataFlow} (hg : g.Exact) {copies : List (ValueId × ValueId)}
    (h : Available g copies) :
    ∃ seq g', (ParallelCopy.order temporary copies).run g = .ok (seq, g') ∧ g.Enriched g' ∧
      Arranged g g' copies seq := by
  have hmem : ∀ {c}, c ∈ ParallelCopy.moves copies → c ∈ copies :=
    fun hc => (ParallelCopy.mem_moves.1 hc).1
  have hfirst : ∀ x ∈ copies.map (·.1) ++ copies.map (·.2), ∃ o, g.origin? x = some o := by
    intro x hx
    rcases List.mem_append.1 hx with hx | hx
    · obtain ⟨c, hc, rfl⟩ := List.mem_map.1 hx
      obtain ⟨⟨ty, ho⟩, -⟩ := h c hc
      exact ⟨_, ho⟩
    · obtain ⟨c, hc, rfl⟩ := List.mem_map.1 hx
      exact (h c hc).2
  have hordered : ∃ saves seq g', ParallelCopy.Ordered temporary (ParallelCopy.moves copies)
      (copies.map (·.1) ++ copies.map (·.2)) (2 * (ParallelCopy.moves copies).length) g
      saves seq g' := by
    -- Whatever is taken exists, so what is new is not taken.
    refine ParallelCopy.orderWithin_supplied (I := fun _ taken g₁ => g₁.Exact ∧
      ∀ x ∈ taken, ∃ o, g₁.origin? x = some o) ?_ ⟨hg, hfirst⟩ (Nat.le_refl _) ?_
    · intro k taken g₁ hI x hx
      obtain ⟨o, ho⟩ := hI.2 x hx
      obtain ⟨t, g₂, hrun, hg₂, hnew, hreg⟩ := temporary_ok hI.1 ho
      refine ⟨t, g₂, hrun, fun ht => ?_, hg₂.exact,
        List.forall_mem_cons.2 ⟨⟨_, hreg⟩, fun y hy => ?_⟩⟩
      · obtain ⟨o', ho'⟩ := hI.2 t ht
        rw [hnew] at ho'
        cases ho'
      · obtain ⟨o', ho'⟩ := hI.2 y hy
        exact ⟨o', hg₂.origin? ho'⟩
    · intro c hc
      exact ⟨List.mem_append_left _ (List.mem_map_of_mem (hmem hc)),
        List.mem_append_right _ (List.mem_map_of_mem (hmem hc))⟩
  obtain ⟨saves, seq, g', hordered⟩ := hordered
  obtain ⟨hg', hnew⟩ := temporaries_new hg hordered.asked
  rw [List.forall₂_map_left_iff, List.forall₂_map_right_iff, List.forall₂_same] at hnew
  refine ⟨seq, g', hordered.runs (4 * (ParallelCopy.moves copies).length) (by omega), hg', saves,
    hordered.sequenced,
    fun p hp => ?_⟩
  obtain ⟨hfresh, o, ho, hreg⟩ := hnew p hp
  obtain ⟨c, hc, he⟩ := hordered.sequenced.saved p hp
  obtain ⟨⟨ty, hty⟩, -⟩ := h c (hmem hc)
  rw [he, hg'.origin? hty] at ho
  cases ho
  exact ⟨hfresh, ty, he ▸ hg'.origin? hty, hreg⟩

namespace Arranged

variable {g g' g'' : DataFlow} {copies seq : List (ValueId × ValueId)}

theorem empty : Arranged g g' [] [] := ⟨[], .done, fun _ hp => absurd hp List.not_mem_nil⟩

theorem weaken (h : Arranged g g' copies seq) (hg : g''.Keeps g) : Arranged g'' g' copies seq := by
  obtain ⟨saves, hseq, hsaves⟩ := h
  exact ⟨saves, hseq, fun p hp => ⟨hg.new (hsaves p hp).new, (hsaves p hp).kind⟩⟩

theorem mono (h : Arranged g g' copies seq) (hg : g'.KeepsRegs g'') :
    Arranged g g'' copies seq := by
  obtain ⟨saves, hseq, hsaves⟩ := h
  refine ⟨saves, hseq, fun p hp => ⟨(hsaves p hp).new, ?_⟩⟩
  obtain ⟨ty, hx, ht⟩ := (hsaves p hp).kind
  exact ⟨ty, hg _ _ hx, hg _ _ ht⟩

theorem targets (h : Arranged g g' copies seq)
    (hc : ∀ c ∈ copies, ∃ ty, g'.origin? c.1 = some (.reg ty)) :
    ∀ p ∈ seq, (∃ ty, g'.origin? p.1 = some (.reg ty)) ∧
      ((∃ c ∈ copies, p.2 = c.2) ∨ ∃ ty, g'.origin? p.2 = some (.reg ty)) := by
  obtain ⟨saves, hseq, hsaves⟩ := h
  have hsave : ∀ c ∈ saves, ∃ ty, g'.origin? c.1 = some (.reg ty) := by
    intro c hm
    obtain ⟨ty, -, ho⟩ := (hsaves c hm).kind
    exact ⟨_, ho⟩
  refine fun p hp => ⟨?_, ?_⟩
  · rcases List.mem_append.1 (hseq.targets.mem_iff.1 (List.mem_map_of_mem hp)) with hm | hm
    · obtain ⟨c, hmove, he⟩ := List.mem_map.1 hm
      exact he ▸ hc c (ParallelCopy.mem_moves.1 hmove).1
    · obtain ⟨c, hsaved, he⟩ := List.mem_map.1 hm
      exact he ▸ hsave c hsaved
  · rcases hseq.sources p hp with ⟨c, hmove, he⟩ | ⟨c, hsaved, he⟩
    · exact .inl ⟨c, (ParallelCopy.mem_moves.1 hmove).1, he⟩
    · exact .inr (he ▸ hsave c hsaved)

theorem available (h : Arranged g g' copies seq) (hg : g.Enriched g') (hc : Available g copies) :
    Available g' seq := by
  intro p hp
  have hregs : ∀ c ∈ copies, ∃ ty, g'.origin? c.1 = some (.reg ty) := by
    intro c hm
    obtain ⟨⟨ty, ho⟩, -⟩ := hc c hm
    exact ⟨ty, hg.origin? ho⟩
  obtain ⟨htarget, hsource⟩ := h.targets hregs p hp
  refine ⟨htarget, ?_⟩
  rcases hsource with ⟨c, hm, he⟩ | ⟨ty, ho⟩
  · obtain ⟨-, o, ho⟩ := hc c hm
    exact ⟨o, he ▸ hg.origin? ho⟩
  · exact ⟨_, ho⟩

end Arranged

def inPlace (regs : Registers) (v : ValueId) : ValueId := (regs.get? v).getD v

/-- Each of the phis has a register of its own, of its type, which the function did not have. -/
structure Assigned (c : Func) (regs : Registers) (phis : List InstId) (g : DataFlow) : Prop where
  given : ∀ phi ∈ phis, ∃ v r, c.flow.result? phi = some v ∧ regs.get? v = some r
  result : ∀ {v r}, regs.get? v = some r → ∃ phi ∈ phis, c.flow.result? phi = some v
  new : ∀ {v r}, regs.get? v = some r → c.flow.origin? r = none
  kind : ∀ {v r}, regs.get? v = some r → ∃ o, c.flow.origin? v = some o ∧
    g.origin? r = some (.reg o.ty)
  distinct : ∀ {v w r}, regs.get? v = some r → regs.get? w = some r → v = w

namespace Assigned

variable {c : Func} {regs : Registers} {phis : List InstId} {g g' : DataFlow} {phi : InstId}
  {v r : ValueId}

theorem empty : Assigned c ∅ [] g where
  given _ hphi := absurd hphi List.not_mem_nil
  result hr := by cases hr
  new hr := by cases hr
  kind hr := by cases hr
  distinct hr _ := by cases hr

theorem mono (h : Assigned c regs phis g) (hg : g.KeepsRegs g') : Assigned c regs phis g' := by
  refine ⟨h.given, h.result, h.new, fun hr => ?_, h.distinct⟩
  obtain ⟨o, ho, hreg⟩ := h.kind hr
  exact ⟨o, ho, hg _ _ hreg⟩

theorem add (h : Assigned c regs phis g) (hg : c.flow.Enriched g) (hg' : g.Enriched g')
    (hv : c.flow.result? phi = some v) {o : ValueDef} (ho : c.flow.origin? v = some o)
    (hnew : g.origin? r = none) (hr : g'.origin? r = some (.reg o.ty)) :
    Assigned c (regs.insert v r) (phis ++ [phi]) g' := by
  have hold : ∀ {w s}, regs.get? w = some s → s ≠ r := by
    rintro w s hs rfl
    obtain ⟨o', -, ho'⟩ := h.kind hs
    rw [hnew] at ho'
    cases ho'
  have hcases : ∀ {w s}, (regs.insert v r).get? w = some s → (v = w ∧ s = r) ∨
      regs.get? w = some s := by
    intro w s hs
    rw [Dict.get?_insert] at hs
    split at hs
    · rename_i he
      exact .inl ⟨he, (Option.some.inj hs).symm⟩
    · exact .inr hs
  refine ⟨fun i hi => ?_, fun {w s} hs => ?_, fun {w s} hs => ?_, fun {w s} hs => ?_,
    fun {w u s} hw hu => ?_⟩
  · rcases List.mem_append.1 hi with hi | hi
    · obtain ⟨w, s, hw, hs⟩ := h.given i hi
      by_cases hvw : v = w
      · exact ⟨w, r, hw, by rw [Dict.get?_insert, if_pos hvw]⟩
      · exact ⟨w, s, hw, by rw [Dict.get?_insert, if_neg hvw, hs]⟩
    · rw [List.mem_singleton.1 hi]
      exact ⟨v, r, hv, by rw [Dict.get?_insert, if_pos rfl]⟩
  · rcases hcases hs with ⟨rfl, -⟩ | hs
    · exact ⟨phi, List.mem_append_right _ List.mem_cons_self, hv⟩
    · obtain ⟨i, hi, hw⟩ := h.result hs
      exact ⟨i, List.mem_append_left _ hi, hw⟩
  · rcases hcases hs with ⟨-, rfl⟩ | hs
    · exact hg.keeps.new hnew
    · exact h.new hs
  · rcases hcases hs with ⟨rfl, rfl⟩ | hs
    · exact ⟨o, ho, hr⟩
    · obtain ⟨o', ho', hreg⟩ := h.kind hs
      exact ⟨o', ho', hg'.origin? hreg⟩
  · rcases hcases hw with ⟨hvw, hsr⟩ | hw <;> rcases hcases hu with ⟨hvu, hsr'⟩ | hu
    · exact hvw.symm.trans hvu
    · exact absurd hsr (hold hu)
    · exact absurd hsr' (hold hw)
    · exact h.distinct hw hu

theorem inPlace_ne (h : Assigned c regs phis g) (hphi : phi ∈ phis)
    (hv : c.flow.result? phi = some v) {o : ValueDef} (ho : c.flow.origin? v = some o)
    (w : ValueId) : inPlace regs w ≠ v := by
  rintro rfl
  obtain ⟨u, r, hu, hr⟩ := h.given phi hphi
  cases hv.symm.trans hu
  cases hw : regs.get? w with
  | some s =>
    have hs : inPlace regs w = s := by rw [inPlace, hw, Option.getD_some]
    rw [hs, h.new hw] at ho
    cases ho
  | none =>
    have hs : inPlace regs w = w := by rw [inPlace, hw, Option.getD_none]
    rw [hs, hw] at hr
    cases hr

theorem source (h : Assigned c regs phis g) (hg : c.flow.Enriched g) {o : ValueDef}
    (ho : c.flow.origin? v = some o) :
    ∃ o', g.origin? (inPlace regs v) = some o' := by
  unfold inPlace
  cases hr : regs.get? v with
  | none => exact ⟨o, hg.origin? ho⟩
  | some r =>
    obtain ⟨o', -, hreg⟩ := h.kind hr
    exact ⟨_, hreg⟩

end Assigned

section Stages

variable {c : Func} {b : Builder} {regs : Registers} {gone phis : List InstId}

theorem addRegister_ok (hflow : c.flow.Enriched b.flow) (h : Assigned c regs phis b.flow)
    {phi : InstId} {v : ValueId} (hv : c.flow.result? phi = some v) (hc : c.flow.Exact) :
    ∃ b' regs', addRegister b regs phi = .ok (b', regs') ∧
      b'.func = { b.func with flow := b'.flow } ∧ b.flow.Enriched b'.flow ∧
      Assigned c regs' (phis ++ [phi]) b'.flow := by
  obtain ⟨ty, ho, -⟩ := hc.result_origin hv
  have hreg : b.flow.Enriched (b.flow.addReg ty).2 := .addReg hflow.exact ty
  have hnew := DataFlow.addReg_new b.flow ty
  have hfresh := DataFlow.origin?_addReg b.flow ty
  unfold addRegister
  rw [DataFlow.result_eq_ok.2 ((hflow.result? phi).trans hv), ok_bind,
    DataFlow.ty_of_origin (hflow.origin? ho), ok_bind]
  simp only [ValueDef.ty]
  cases hadd : b.flow.addReg ty with
  | mk r g =>
    rw [hadd] at hreg hnew hfresh
    dsimp only
    cases g.name? v with
    | none => exact ⟨b.withFlow g, _, rfl, rfl, hreg, h.add hflow hreg hv ho hnew hfresh⟩
    | some name =>
      have hset : g.Enriched (g.setName r name) := .setName hreg.exact r name
      exact ⟨b.withFlow (g.setName r name), _, rfl, rfl, hreg.trans hset,
        h.add hflow (hreg.trans hset) hv ho hnew (hset.origin? hfresh)⟩

theorem addRegisters_yields (hc : b.flow.Exact)
    (hphis : ∀ phi ∈ phis, ∃ v, b.flow.result? phi = some v) :
    (phis.foldlM (fun (b, regs) phi => addRegister b regs phi) (b, (∅ : Registers)) : Run
      (Builder × Registers)).Yields
      fun p => p.1.func = { b.func with flow := p.1.flow } ∧ b.flow.Enriched p.1.flow ∧
        Assigned b.func p.2 phis p.1.flow := by
  refine Run.yields_foldlM (fun done (p : Builder × Registers) =>
    p.1.func = { b.func with flow := p.1.flow } ∧ b.flow.Enriched p.1.flow ∧
    Assigned b.func p.2 done p.1.flow) ⟨rfl, .refl hc, .empty⟩ ?_
  rintro done phi rest ⟨c, regs⟩ hsplit ⟨hfunc, hflow, hregs⟩
  obtain ⟨v, hv⟩ := hphis phi (hsplit ▸ List.mem_append_right _ List.mem_cons_self)
  obtain ⟨c', regs', hrun, hfunc', hflow', hregs'⟩ := addRegister_ok hflow hregs hv hc
  exact Run.yields_lift ⟨_, hrun, hfunc'.trans (by rw [hfunc]), hflow.trans hflow', hregs'⟩

end Stages

def edgeCopies (g : DataFlow) (regs : Registers) (a : BlockId) (phi : InstId) :
    List (ValueId × ValueId) :=
  match g.result? phi, g.inst? phi with
  | some w, some inst => (inst.edges.filter (·.2 = a)).map fun e =>
    (inPlace regs w, inPlace regs e.1)
  | _, _ => []

def blockCopies (g : DataFlow) (regs : Registers) (phis : List InstId) (a : BlockId) :
    List (ValueId × ValueId) :=
  phis.flatMap (edgeCopies g regs a)

theorem mem_edgeCopies {g : DataFlow} {regs : Registers} {a : BlockId} {phi : InstId}
    {p : ValueId × ValueId} :
    p ∈ edgeCopies g regs a phi ↔ ∃ w inst v, g.result? phi = some w ∧ g.inst? phi = some inst ∧
    (v, a) ∈ inst.edges ∧
      p = (inPlace regs w, inPlace regs v) := by
  unfold edgeCopies
  constructor
  · intro h
    split at h
    · rename_i w inst hw hi
      obtain ⟨⟨v, a'⟩, he, rfl⟩ := List.mem_map.1 h
      obtain ⟨he, ha⟩ := List.mem_filter.1 he
      exact ⟨w, inst, v, hw, hi, of_decide_eq_true ha ▸ he, rfl⟩
    · cases h
  · rintro ⟨w, inst, v, hw, hi, he, rfl⟩
    rw [hw, hi]
    exact List.mem_map.2 ⟨(v, a), List.mem_filter.2 ⟨he, decide_eq_true rfl⟩, rfl⟩

theorem mem_blockCopies {g : DataFlow} {regs : Registers} {phis : List InstId} {a : BlockId}
    {p : ValueId × ValueId} :
    p ∈ blockCopies g regs phis a ↔ ∃ phi ∈ phis, ∃ w inst v, g.result? phi = some w ∧
    g.inst? phi = some inst ∧
      (v, a) ∈ inst.edges ∧ p = (inPlace regs w, inPlace regs v) := by
  unfold blockCopies
  rw [List.mem_flatMap]
  simp only [mem_edgeCopies]

/-- The dictionary holds the rows that are not empty, each once. -/
structure Gathered (copies : Dict BlockId (List (ValueId × ValueId)))
    (row : BlockId → List (ValueId × ValueId)) :
    Prop where
  once : copies.keys.Nodup
  rows : ∀ a, (copies.get? a).getD [] = row a
  used : ∀ p ∈ copies.entries, p.2 ≠ []

theorem Gathered.insert {copies : Dict BlockId (List (ValueId × ValueId))}
    {row : BlockId → List (ValueId × ValueId)} (h : Gathered copies row) (pred : BlockId)
    (q : ValueId × ValueId) :
    Gathered (copies.insert pred ((copies.get? pred).getD [] ++ [q])) fun a =>
      if pred = a then row a ++ [q] else row a where
  once := Dict.keys_nodup_insert h.once
  rows a := by
    rw [Dict.get?_insert]
    split
    · rename_i ha
      rw [Option.getD_some, h.rows, ha]
    · exact h.rows a
  used p hp := by
    rcases Dict.mem_insert hp with rfl | hp
    · exact List.append_ne_nil_of_right_ne_nil _ (List.cons_ne_nil _ _)
    · exact h.used p hp

theorem gatherCopies_ok {g : DataFlow} {regs : Registers} {phis : List InstId}
    (hphis : ∀ phi ∈ phis, ∃ v r inst, g.result? phi = some v ∧ regs.get? v = some r ∧
      g.inst? phi = some inst) :
    ∃ copies, gatherCopies g regs phis = .ok copies ∧ Gathered copies
      (blockCopies g regs phis) := by
  unfold gatherCopies
  refine foldlM_yields (fun done copies => Gathered copies (blockCopies g regs done))
    ⟨List.nodup_nil, fun _ => rfl, fun p hp => absurd hp List.not_mem_nil⟩ ?_
  intro done phi rest copies hsplit hcopies
  obtain ⟨v, r, inst, hv, hr, hi⟩ := hphis phi (hsplit ▸ List.mem_append_right _ List.mem_cons_self)
  rw [DataFlow.result_eq_ok.2 hv, ok_bind,
    show regs.get v = .ok r from ofOption_eq_ok.2 hr, ok_bind, DataFlow.inst_eq_ok.2 hi, ok_bind]
  refine ⟨_, rfl, ?_⟩
  have hreg : inPlace regs v = r := by rw [inPlace, hr, Option.getD_some]
  have hrow : ∀ a, blockCopies g regs (done ++ [phi]) a = blockCopies g regs done a ++
      (inst.edges.filter (·.2 = a)).map fun e => (r, inPlace regs e.1) := by
    intro a
    unfold blockCopies
    rw [List.flatMap_append, List.flatMap_singleton, edgeCopies, hv, hi]
    dsimp only
    rw [hreg]
  have hend := foldl_induct (b := copies) (l := inst.edges)
    (f := fun copies (e : ValueId × BlockId) =>
      copies.insert e.2 ((copies.get? e.2).getD [] ++ [(r, (regs.get? e.1).getD e.1)]))
    (fun done' copies => Gathered copies fun a => blockCopies g regs done a ++
      (done'.filter (·.2 = a)).map fun e => (r, inPlace regs e.1)) (by simpa using hcopies) ?_
  · rw [show blockCopies g regs (done ++ [phi]) = _ from funext hrow]
    exact hend
  · rintro pre ⟨u, pred⟩ post copies - hgathered
    have hsame : (fun a => blockCopies g regs done a ++
        ((pre ++ [(u, pred)]).filter (·.2 = a)).map fun e => (r, inPlace regs e.1)) = fun a =>
        if pred = a then blockCopies g regs done a ++ (pre.filter (·.2 = a)).map (fun e =>
          (r, inPlace regs e.1)) ++ [(r, inPlace regs u)]
        else blockCopies g regs done a ++ (pre.filter (·.2 = a)).map fun e =>
          (r, inPlace regs e.1) := by
      funext a
      by_cases ha : pred = a
      · simp [ha]
      · simp [ha]
    rw [hsame]
    exact hgathered.insert pred (r, inPlace regs u)

theorem blockCopies_nodup {c : Func} {g : DataFlow} {regs : Registers} {phis : List InstId}
    (hregs : Assigned c regs phis g) (hc : c.flow.Exact) (hphis : phis.Nodup)
    (hblocks : ∀ phi ∈ phis, ∀ inst, c.flow.inst? phi = some inst → inst.blocks.Nodup)
    (a : BlockId) :
    ((blockCopies c.flow regs phis a).map (·.1)).Nodup := by
  unfold blockCopies
  rw [List.map_flatMap]
  have hfst : ∀ {phi x}, phi ∈ phis → x ∈ (edgeCopies c.flow regs a phi).map (·.1) →
      ∃ w, c.flow.result? phi = some w ∧ regs.get? w = some x := by
    intro phi x hphi hx
    obtain ⟨p, hp, rfl⟩ := List.mem_map.1 hx
    obtain ⟨w, inst, v, hw, -, -, rfl⟩ := mem_edgeCopies.1 hp
    obtain ⟨w', r, hw', hr⟩ := hregs.given phi hphi
    cases hw.symm.trans hw'
    exact ⟨w, hw, by rw [inPlace, hr, Option.getD_some]⟩
  refine List.nodup_flatMap.2 ⟨fun phi hphi => ?_,
    hphis.imp_of_mem fun {phi phi'} hm hm' hne x hx hx' => ?_⟩
  · unfold edgeCopies
    split
    · rename_i w inst hw hi
      rw [List.map_map]
      refine List.pairwise_map.2 ?_
      have hnodup : (inst.edges.map (·.2)).Nodup := by
        refine (hblocks phi hphi inst hi).sublist ?_
        cases inst with
        | phi op args preds =>
          show ((args.zip preds).map Prod.snd).Sublist preds
          rw [List.map_snd_zip (Nat.le_of_eq (hc.phi_lengths hi).symm)]
        | _ => exact List.nil_sublist _
      refine ((List.pairwise_map.1 hnodup).filter _).imp_of_mem fun {e e'} he he' hne =>
        absurd ?_ hne
      exact (of_decide_eq_true (List.mem_filter.1 he).2).trans
        (of_decide_eq_true (List.mem_filter.1 he').2).symm
    · exact List.nodup_nil
  · obtain ⟨w, hw, hr⟩ := hfst hm hx
    obtain ⟨w', hw', hr'⟩ := hfst hm' hx'
    obtain ⟨ty, ho, -⟩ := hc.result_origin hw'
    rw [hregs.distinct hr hr'] at hw
    exact hne (hc.definer_eq hw ho).symm

def standIn (c : Func) (regs : Registers) (gone : List InstId) (v : ValueId) : ValueId :=
  if ∃ phi ∈ gone, c.flow.result? phi = some v then inPlace regs v else v

def Spelled (d : Func) (ks : List InstId) (ms : List (ValueId × ValueId)) : Prop :=
  List.Forall₂ (fun k (m : ValueId × ValueId) => d.flow.inst? k =
    some (.binary .copy m.1 m.2)) ks ms

theorem Spelled.congr {d d' : Func} {ks : List InstId} {ms : List (ValueId × ValueId)}
    (h : Spelled d ks ms) (hsame : ∀ k m, m ∈ ms → d.flow.inst? k = some (.binary .copy m.1 m.2) →
      d'.flow.inst? k = some (.binary .copy m.1 m.2)) : Spelled d' ks ms := by
  induction h with
  | nil => exact .nil
  | cons hk _ ih =>
    exact .cons (hsame _ _ List.mem_cons_self hk) (ih fun k m hm =>
      hsame k m (List.mem_cons_of_mem _ hm))

theorem Spelled.of_mem {d : Func} {ks : List InstId} {ms : List (ValueId × ValueId)}
    (h : Spelled d ks ms) {k : InstId} (hk : k ∈ ks) :
    ∃ m ∈ ms, d.flow.inst? k = some (.binary .copy m.1 m.2) := by
  induction h with
  | nil => cases hk
  | cons hcopy _ ih =>
    rcases List.mem_cons.1 hk with rfl | hk
    · exact ⟨_, List.mem_cons_self, hcopy⟩
    · obtain ⟨m, hm, hcopy⟩ := ih hk
      exact ⟨m, List.mem_cons_of_mem _ hm, hcopy⟩

/-- The second function is the first one with the moves of each block as copies in front of its
terminator, and without some of its phis, the registers of which are read in their place. -/
structure Lowered (c d : Func) (regs : Registers) (gone : List InstId)
    (moves : BlockId → List (ValueId × ValueId)) :
    Prop where
  coherent : d.Coherent
  alike : Func.Alike c d
  params : d.flow.params = c.flow.params
  imports : d.flow.imports = c.flow.imports
  last : ∀ {a front t}, c.insts a = .ok (front ++ [t]) → c.flow.isTerminator t = true →
    ∃ ks, d.insts a = .ok (front.filter (· ∉ gone) ++ (ks ++ [t])) ∧ Spelled d ks (moves a)
  kept : ∀ {i inst}, c.flow.inst? i = some inst → i ∉ gone →
    d.flow.inst? i = some (inst.mapArgs (standIn c regs gone))
  result? : ∀ {i inst}, c.flow.inst? i = some inst → i ∉ gone → d.flow.result? i = c.flow.result? i
  origin? : ∀ {v o}, c.flow.origin? v = some o → (∀ phi ∈ gone, c.flow.result? phi ≠ some v) →
    d.flow.origin? v = some o

theorem standIn_nil (c : Func) (regs : Registers) (v : ValueId) : standIn c regs [] v = v := by
  unfold standIn
  rw [if_neg]
  rintro ⟨phi, hphi, -⟩
  cases hphi

theorem Assigned.standIn_append {c : Func} {regs : Registers} {gone phis : List InstId}
    {g : DataFlow} (h : Assigned c regs phis g) {phi : InstId} {v r : ValueId} {o : ValueDef}
    (hv : c.flow.result? phi = some v) (ho : c.flow.origin? v = some o) (hr : regs.get? v = some r)
    (u : ValueId) :
    DataFlow.swap v r (standIn c regs gone u) = standIn c regs (gone ++ [phi]) u := by
  have hplace : inPlace regs v = r := by rw [inPlace, hr, Option.getD_some]
  by_cases hu : u = v
  · subst hu
    have hthis : standIn c regs (gone ++ [phi]) u = r := by
      rw [standIn, if_pos ⟨phi, List.mem_append_right _ List.mem_cons_self, hv⟩, hplace]
    rw [hthis, standIn]
    unfold DataFlow.swap
    split
    · rw [hplace, ite_self]
    · exact if_pos rfl
  · have hsame : standIn c regs (gone ++ [phi]) u = standIn c regs gone u := by
      unfold standIn
      refine if_congr ⟨?_, ?_⟩ rfl rfl
      · rintro ⟨i, hi, hiu⟩
        rcases List.mem_append.1 hi with hi | hi
        · exact ⟨i, hi, hiu⟩
        · rw [List.mem_singleton.1 hi, hv] at hiu
          exact absurd (Option.some.inj hiu).symm hu
      · rintro ⟨i, hi, hiu⟩
        exact ⟨i, List.mem_append_left _ hi, hiu⟩
    rw [hsame, DataFlow.swap, if_neg]
    unfold standIn
    split
    · obtain ⟨phi', hphi', hv'⟩ := h.result hr
      exact h.inPlace_ne hphi' hv' ho u
    · exact hu

namespace Lowered

variable {c d d' : Func} {regs : Registers} {gone : List InstId}
  {moves : BlockId → List (ValueId × ValueId)} {a u v : BlockId} {i k phi t : InstId} {inst : Inst}

theorem blocks (h : Lowered c d regs gone moves) : d.blocks = c.blocks := h.alike.blocks

theorem start (hc : c.Coherent) {g : DataFlow} (hg : c.flow.Enriched g) :
    Lowered c { c with flow := g } regs [] fun _ => [] where
  coherent := hc.enrich hg
  alike := ⟨rfl, rfl, rfl, rfl⟩
  params := hg.params
  imports := hg.imports
  last {a front t} hxs _ := by
    refine ⟨[], ?_, .nil⟩
    show c.insts a = _
    rw [hxs]
    simp
  kept {i inst} hi _ := by
    rw [Inst.mapArgs_eq_self fun v _ => standIn_nil c regs v]
    exact (hg.inst? i).trans hi
  result? {i inst} _ _ := hg.result? i
  origin? hv _ := hg.origin? hv

theorem enrich (h : Lowered c d regs gone moves) {g : DataFlow} (hg : d.flow.Enriched g) :
    Lowered c { d with flow := g } regs gone moves where
  coherent := h.coherent.enrich hg
  alike := h.alike.trans ⟨rfl, rfl, rfl, rfl⟩
  params := hg.params.trans h.params
  imports := hg.imports.trans h.imports
  last hxs ht := by
    obtain ⟨ks, hks, hspell⟩ := h.last hxs ht
    exact ⟨ks, hks, hspell.congr fun k m _ hk => (hg.inst? k).trans hk⟩
  kept hi hgone := (hg.inst? _).trans (h.kept hi hgone)
  result? hi hgone := (hg.result? _).trans (h.result? hi hgone)
  origin? hv hgone := hg.origin? (h.origin? hv hgone)

theorem copy (h : Lowered c d regs gone moves) (hd : d'.Coherent) {x y : ValueId}
    {pre : List InstId} (hins : d.Inserted d' k (.binary .copy x y) .void none a pre [t]) :
    Lowered c d' regs gone (Function.update moves a (moves a ++ [(x, y)])) := by
  have hne : ∀ {i inst}, d.flow.inst? i = some inst → i ≠ k := by
    rintro i inst hi rfl
    rw [hins.grown.fresh] at hi
    cases hi
  have hold : ∀ {i inst}, d.flow.inst? i = some inst → d'.flow.inst? i = some inst := by
    intro i inst hi
    rw [hins.grown.inst?, if_neg (hne hi), hi]
  refine
    { coherent := hd
      alike := h.alike.trans hins.alike
      params := hins.grown.params.trans h.params
      imports := hins.grown.imports.trans h.imports
      last := ?_
      kept := fun hi hgone => hold (h.kept hi hgone)
      result? := ?_
      origin? := ?_ }
  · intro e front t' hxs ht
    obtain ⟨ks, hks, hspell⟩ := h.last hxs ht
    have hspell' : Spelled d' ks (moves e) := hspell.congr fun k m _ hk => hold hk
    by_cases he : e = a
    · subst he
      have hbefore := hins.before
      rw [hks, ← List.append_assoc] at hbefore
      obtain ⟨rfl, ht'⟩ := List.append_singleton_inj.1 (Except.ok.inj hbefore)
      refine ⟨ks ++ [k], ?_, ?_⟩
      · rw [hins.here, ht']
        simp only [List.append_assoc, List.singleton_append]
      · rw [Function.update_self]
        exact List.rel_append hspell' (.cons (by rw [hins.grown.inst?, if_pos rfl]) .nil)
    · refine ⟨ks, (hins.others he).trans hks, ?_⟩
      rw [Function.update_of_ne he]
      exact hspell'
  · intro i inst hi hgone
    rw [hins.grown.result?, if_neg (hne (h.kept hi hgone)), h.result? hi hgone]
  · intro v o hv hgone
    rw [hins.grown.origin?, if_neg (fun hn => by cases hn)]
    exact h.origin? hv hgone

/-- A phi whose register is read in its place goes. -/
theorem lower (h : Lowered c d regs gone moves) {phis : List InstId}
    (hregs : Assigned c regs phis d.flow) {v r : ValueId} (hphi : c.flow.isPhi phi = true)
    (hnew : phi ∉ gone) (hv : c.flow.result? phi = some v) {o : ValueDef}
    (ho : c.flow.origin? v = some o) (hr : regs.get? v = some r)
    (hmoves : ∀ a, ∀ m ∈ moves a, m.1 ≠ v ∧ m.2 ≠ v) {g : DataFlow}
    (hR : DataFlow.Rewired d.flow g fun _ inst => inst.mapArgs (DataFlow.swap v r))
    (hd : d'.Coherent) (hresult : g.result? phi = some v)
    (hshrunk : DataFlow.Shrunk g d'.flow phi) (halike : Func.Alike d d')
    (hinsts : ∀ a, d'.insts a = (d.insts a).map (·.filter (· ≠ phi))) :
    Lowered c d' regs (gone ++ [phi]) moves := by
  have hnot : ∀ {i}, i ∉ gone ++ [phi] → i ∉ gone ∧ i ≠ phi := by
    intro i hi
    rw [List.mem_append, List.mem_singleton, not_or] at hi
    exact hi
  have hinst : ∀ {i inst}, d.flow.inst? i = some inst → i ≠ phi →
      d'.flow.inst? i = some (inst.mapArgs (DataFlow.swap v r)) := by
    intro i inst hi hne
    rw [hshrunk.inst?, if_neg hne, hR.inst?, hi, Option.map_some]
  have hplain : ∀ {k x y}, d.flow.inst? k = some (.binary .copy x y) → k ≠ phi := by
    rintro k x y hk rfl
    obtain ⟨inst, hi⟩ := DataFlow.inst_of_isPhi hphi
    rw [DataFlow.isPhi_of_inst hi, ← Inst.op_mapArgs (standIn c regs gone),
      ← Option.some.inj (hk.symm.trans (h.kept hi hnew))] at hphi
    cases hphi
  refine
    { coherent := hd
      alike := h.alike.trans halike
      params := hshrunk.params.trans (hR.params.trans h.params)
      imports := hshrunk.imports.trans (hR.imports.trans h.imports)
      last := ?_
      kept := ?_
      result? := ?_
      origin? := ?_ }
  · intro a front t hxs ht
    obtain ⟨ks, hks, hspell⟩ := h.last hxs ht
    have hcopies : ∀ k ∈ ks, k ≠ phi := by
      intro k hk
      obtain ⟨m, -, hcopy⟩ := hspell.of_mem hk
      exact hplain hcopy
    have hlast : t ≠ phi := by
      rintro rfl
      rw [Func.not_phi_of_terminator ht] at hphi
      cases hphi
    refine ⟨ks, ?_, hspell.congr fun k m hm hk => ?_⟩
    · rw [hinsts, hks, map_ok, List.filter_append, List.filter_append, List.filter_filter,
        List.filter_eq_self.2 fun k hk => decide_eq_true (hcopies k hk)]
      congr 2
      · refine List.filter_congr fun i _ => ?_
        simp [List.mem_append, not_or, Bool.and_comm]
      · simpa using hlast
    · obtain ⟨hx, hy⟩ := hmoves a m hm
      rw [hinst hk (hplain hk)]
      show some (Inst.binary .copy (DataFlow.swap v r m.1) (DataFlow.swap v r m.2)) = _
      rw [DataFlow.swap, if_neg hx, DataFlow.swap, if_neg hy]
  · intro i inst hi hgone
    obtain ⟨hgone, hne⟩ := hnot hgone
    rw [hinst (h.kept hi hgone) hne, Inst.mapArgs_mapArgs]
    congr 2
    exact funext fun u => hregs.standIn_append hv ho hr u
  · intro i inst hi hgone
    obtain ⟨hgone, hne⟩ := hnot hgone
    rw [hshrunk.result?, if_neg hne, hR.result?, h.result? hi hgone]
  · intro w o' hw hgone
    have hne : v ≠ w := by
      rintro rfl
      exact hgone phi (List.mem_append_right _ List.mem_cons_self) hv
    rw [hshrunk.origin?, hresult, if_neg fun he => hne (Option.some.inj he)]
    exact hR.origin? (h.origin? hw fun i hi => hgone i (List.mem_append_left _ hi))

theorem stays (hgone : ∀ i ∈ gone, c.flow.isPhi i = true) (ht : c.flow.isTerminator t = true) :
    t ∉ gone := fun hm => by
  have hphi := hgone t hm
  rw [Func.not_phi_of_terminator ht] at hphi
  cases hphi

theorem inst_cases (h : Lowered c d regs gone moves) (hc : c.Coherent) (hs : c.WellShaped)
    (hgone : ∀ i ∈ gone, c.flow.isPhi i = true) (hi : d.flow.inst? i = some inst) :
    (∃ old, c.flow.inst? i = some old ∧ i ∉ gone ∧ inst = old.mapArgs (standIn c regs gone)) ∨
      ∃ a ∈ c.blocks, ∃ m ∈ moves a, inst = .binary .copy m.1 m.2 := by
  obtain ⟨a, ys, hys, hmem⟩ := h.coherent.home hi
  have ha : a ∈ c.blocks := h.blocks ▸ Layout.mem_blocks_iff.2 ⟨ys, hys⟩
  obtain ⟨xs, hxs⟩ := Layout.mem_blocks_iff.1 ha
  obtain ⟨front, t, rfl, ht, -⟩ := hs.ended hxs
  obtain ⟨ks, hks, hspell⟩ := h.last hxs ht
  cases hys.symm.trans hks
  have hkept : i ∈ front ++ [t] → i ∉ gone →
      ∃ old, c.flow.inst? i = some old ∧ i ∉ gone ∧ inst = old.mapArgs (standIn c regs gone) := by
    intro him hig
    obtain ⟨old, hold⟩ := hc.inst_of_mem hxs him
    rw [h.kept hold hig] at hi
    exact ⟨old, hold, hig, (Option.some.inj hi).symm⟩
  rcases List.mem_append.1 hmem with hm | hm
  · obtain ⟨hm, hig⟩ := List.mem_filter.1 hm
    exact .inl (hkept (List.mem_append_left _ hm) (of_decide_eq_true hig))
  rcases List.mem_append.1 hm with hm | hm
  · obtain ⟨m, hmem, hcopy⟩ := hspell.of_mem hm
    rw [hcopy] at hi
    exact .inr ⟨a, ha, m, hmem, (Option.some.inj hi).symm⟩
  · rw [List.mem_singleton.1 hm] at hkept ⊢
    exact .inl (hkept (List.mem_append_right _ List.mem_cons_self) (stays hgone ht))

theorem ends (h : Lowered c d regs gone moves) (hs : c.WellShaped)
    (hgone : ∀ i ∈ gone, c.flow.isPhi i = true) (ha : a ∈ c.blocks) :
    ∃ front t inst, d.insts a = .ok (front ++ [t]) ∧ d.flow.inst? t = some inst ∧
      inst.op.isTerminator = true ∧
      ∀ b, c.Leads a b ↔ b ∈ inst.blocks := by
  obtain ⟨xs, hxs⟩ := Layout.mem_blocks_iff.1 ha
  obtain ⟨front, t, rfl, ht, -⟩ := hs.ended hxs
  obtain ⟨ks, hks, -⟩ := h.last hxs ht
  obtain ⟨inst, hi⟩ := DataFlow.inst_of_isTerminator ht
  have hop : inst.op.isTerminator = true := (DataFlow.isTerminator_of_inst hi).symm.trans ht
  refine ⟨front.filter (· ∉ gone) ++ ks, t, _, by rw [hks, List.append_assoc],
    h.kept hi (stays hgone ht), (Inst.op_mapArgs _ inst).symm ▸ hop, fun b => ?_⟩
  rw [Inst.blocks_mapArgs]
  exact Func.leads_last_iff hxs hi hop

theorem leads_iff (h : Lowered c d regs gone moves) (hs : c.WellShaped)
    (hgone : ∀ i ∈ gone, c.flow.isPhi i = true) :
    d.Leads u v ↔ c.Leads u v := by
  by_cases hu : u ∈ c.blocks
  · obtain ⟨front, t, inst, hxs, hi, hop, hleads⟩ := h.ends hs hgone hu
    rw [hleads, Func.leads_last_iff hxs hi hop]
  · constructor
    · exact fun hl => absurd (h.blocks ▸ hl.mem_blocks) hu
    · exact fun hl => absurd hl.mem_blocks hu

theorem no_phi (h : Lowered c d regs gone moves) (hc : c.Coherent) (hs : c.WellShaped)
    (hall : ∀ i, i ∈ gone ↔ c.flow.isPhi i = true) (i : InstId) : d.flow.isPhi i = false := by
  rw [Bool.eq_false_iff]
  intro hphi
  obtain ⟨inst, hi⟩ := DataFlow.inst_of_isPhi hphi
  rw [DataFlow.isPhi_of_inst hi] at hphi
  rcases h.inst_cases hc hs (fun i => (hall i).1) hi with ⟨old, hold, hgone, rfl⟩ |
    ⟨a, -, m, -, rfl⟩
  · rw [Inst.op_mapArgs, ← DataFlow.isPhi_of_inst hold] at hphi
    exact hgone ((hall i).2 hphi)
  · cases hphi

end Lowered

section Stages

variable {c : Func} {b : Builder} {regs : Registers} {gone : List InstId}
  {moves : BlockId → List (ValueId × ValueId)}

theorem copy_ok (hb : b.func.Coherent) {x y : ValueId} (hx : ∃ o, b.flow.origin? x = some o)
    (hy : ∃ o, b.flow.origin? y = some o) {a : BlockId} {pre post : List InstId}
    (hxs : b.func.insts a = .ok (pre ++ post)) (hgap : b.pos.Gap a pre post) :
    ∃ i b', b.copy none x y = .ok (i, b') ∧ b'.func.Coherent ∧
      b.func.Inserted b'.func i (.binary .copy x y) .void none a pre post ∧ b'.pos.Gap a
        (pre ++ [i]) post := by
  have hargs : ∀ v ∈ (Inst.binary .copy x y).args, ∃ o, b.flow.origin? v = some o := by
    intro v hv
    rcases List.mem_cons.1 hv with rfl | hv
    · exact hx
    · exact List.mem_singleton.1 hv ▸ hy
  obtain ⟨i, b', v?, hrun, hcoh, hins, hgap'⟩ :=
    Builder.insert_ok hb .void hargs (fun _ _ _ he => by cases he) hxs hgap
  obtain rfl := hins.grown.yields.2 rfl
  refine ⟨i, b', ?_, hcoh, hins, hgap'⟩
  unfold Builder.copy Builder.emit
  rw [hrun]
  rfl

theorem insertCopies_yields (h : Lowered c b.func regs [] moves) (hs : c.WellShaped)
    {block : BlockId} (hblock : block ∈ c.blocks) (hnone : moves block = [])
    {copies : List (ValueId × ValueId)} (hav : Available b.flow copies) :
    (insertCopies b block copies).Yields fun d => b.flow.Keeps d.flow ∧
    ∃ seq, Arranged b.flow d.flow copies seq ∧
      Lowered c d.func regs [] (Function.update moves block seq) := by
  obtain ⟨front, t, inst, hxs, hi, hop, -⟩ :=
    h.ends hs (fun _ hi => absurd hi List.not_mem_nil) hblock
  obtain ⟨seq, g, hrun, hg, harr⟩ := order_runs h.coherent.flow hav
  have hseq := harr.available hg hav
  have hat : (b.withFlow g).atTerminator block = .ok ((b.withFlow g).goTo (.before t)) := by
    unfold Builder.atTerminator
    rw [Func.terminator?_last (f := (b.withFlow g).func) hxs
      ((DataFlow.isTerminator_of_inst (g := g) ((hg.inst? t).trans hi)).trans hop)]
    rfl
  unfold insertCopies
  refine (Run.yields_lift ⟨_, hrun, rfl⟩).bind ?_
  rintro _ rfl
  refine (Run.yields_lift ⟨_, hat, rfl⟩).bind ?_
  rintro _ rfl
  refine (Run.yields_foldlM (fun done (e : Builder) =>
    Lowered c e.func regs [] (Function.update moves block done) ∧ g.Keeps e.flow ∧
    ∃ pre, e.func.insts block = .ok (pre ++ [t]) ∧ e.pos.Gap block pre [t]) ?_ ?_).mono ?_
  · refine ⟨?_, .refl g, front, hxs, .before t block front []⟩
    rw [← hnone, Function.update_eq_self]
    exact h.enrich hg
  · rintro done ⟨x, y⟩ rest e hsplit ⟨hlow, hkeeps, pre, hpre, hgap⟩
    obtain ⟨⟨ty, ho⟩, o', ho'⟩ := hseq (x, y) (hsplit ▸ List.mem_append_right _ List.mem_cons_self)
    obtain ⟨i, e', hcopy, hcoh, hins, hgap'⟩ :=
      copy_ok hlow.coherent ⟨_, hkeeps _ _ ho⟩ ⟨o', hkeeps _ _ ho'⟩ hpre hgap
    refine (Run.yields_lift ⟨_, hcopy, rfl⟩).bind ?_
    rintro _ rfl
    refine (Run.yields_log (P := fun _ => True) trivial).bind fun _ _ => Run.yields_pure ?_
    refine ⟨?_, fun v o hv => ?_, pre ++ [i], ?_, hgap'⟩
    · have hlow' := hlow.copy hcoh hins
      rwa [Function.update_self, Function.update_idem] at hlow'
    · exact (hins.grown.origin? v).trans ((if_neg (by simp)).trans (hkeeps v o hv))
    · rw [hins.here, List.append_assoc]
      rfl
  · rintro d ⟨hlow, hkeeps, -⟩
    exact ⟨hg.keeps.trans hkeeps, seq, harr.mono hkeeps.regs, hlow⟩

/-- A phi goes, and its users read the register. -/
theorem lower_yields (h : Lowered c b.func regs gone moves) {phis : List InstId}
    (hregs : Assigned c regs phis b.flow) (hc : c.flow.Exact) {phi : InstId} (hmem : phi ∈ phis)
    (hphi : c.flow.isPhi phi = true) (hnew : phi ∉ gone)
    (hmoves : ∀ {v}, c.flow.result? phi = some v → ∀ a, ∀ m ∈ moves a, m.1 ≠ v ∧ m.2 ≠ v) :
    (lower regs b phi).Yields fun d => Lowered c d.func regs (gone ++ [phi]) moves ∧
    b.flow.KeepsRegs d.flow := by
  obtain ⟨v, r, hv, hr⟩ := hregs.given phi hmem
  obtain ⟨inst, hi⟩ := DataFlow.inst_of_isPhi hphi
  obtain ⟨ty, hov, -⟩ := hc.result_origin hv
  have hv' : b.flow.result? phi = some v := (h.result? hi hnew).trans hv
  obtain ⟨ty', ho, -⟩ := h.coherent.flow.result_origin hv'
  obtain ⟨o, -, hor⟩ := hregs.kind hr
  have hne : r ≠ v := by
    rintro rfl
    rw [hregs.new hr] at hov
    cases hov
  obtain ⟨g, hreplace, hcoh, hR⟩ := Builder.replaceUse_ok h.coherent ho hor
  have hi' : (b.withFlow g).flow.inst? phi =
      some ((inst.mapArgs (standIn c regs gone)).mapArgs (DataFlow.swap v r)) := by
    show g.inst? phi = _
    rw [hR.inst?, show b.flow.inst? phi = _ from h.kept hi hnew, Option.map_some]
  have hresult : (b.withFlow g).flow.result? phi = some v := (hR.result? phi).trans hv'
  have hfree : ∀ w, (b.withFlow g).flow.result? phi = some w →
      ∀ j jnst, (b.withFlow g).flow.inst? j = some jnst →
      w ∉ jnst.args := by
    intro w hw j jnst hj hm
    cases hresult.symm.trans hw
    have hj : g.inst? j = some jnst := hj
    rw [hR.inst?] at hj
    obtain ⟨old, -, rfl⟩ := Option.map_eq_some_iff.1 hj
    rw [Inst.args_mapArgs] at hm
    obtain ⟨x, -, hx⟩ := List.mem_map.1 hm
    unfold DataFlow.swap at hx
    split at hx
    · exact hne hx
    · rename_i hxv
      exact hxv hx
  obtain ⟨d, hremove, hcohd, hshrunk, halike, hinsts⟩ := Builder.removeInst_ok hcoh hi' hfree
  unfold PhiLowering.lower
  refine (Run.yields_lift ⟨v, DataFlow.result_eq_ok.2 hv', rfl⟩).bind ?_
  rintro _ rfl
  refine (Run.yields_lift ⟨r, ofOption_eq_ok.2 hr, rfl⟩).bind ?_
  rintro _ rfl
  refine (Run.yields_log (P := fun _ => True) trivial).bind fun _ _ => ?_
  refine (Run.yields_lift ⟨_, hreplace, rfl⟩).bind ?_
  rintro _ rfl
  refine Run.yields_lift ⟨d, hremove,
    h.lower hregs hphi hnew hv hov hr (hmoves hv) hR hcohd hresult hshrunk
      ⟨halike.name, halike.sig, halike.blockTable, halike.blocks⟩ hinsts, fun s ty hs => ?_⟩
  rw [hshrunk.origin?, hresult, if_neg]
  · exact hR.origin? hs
  · rintro he
    cases he
    cases ho.symm.trans hs

theorem mem_allPhis {f : Func} (hc : f.Coherent) (hs : f.WellShaped) {i : InstId} :
    i ∈ f.allPhis ↔ f.flow.isPhi i = true := by
  unfold Func.allPhis
  rw [List.mem_flatMap]
  constructor
  · rintro ⟨row, -, hi⟩
    exact List.all_eq_true.1 List.all_takeWhile i hi
  · intro hphi
    obtain ⟨inst, hi⟩ := DataFlow.inst_of_isPhi hphi
    obtain ⟨a, xs, hxs, hmem⟩ := hc.home hi
    obtain ⟨row, hrow, rfl⟩ := Layout.insts_eq_ok.1 hxs
    exact ⟨row, Layout.row?_mem hrow, hs.mem_phis hxs hmem hphi⟩

theorem allPhis_nodup {f : Func} (hc : f.Coherent) : f.allPhis.Nodup := by
  refine hc.layout.allInsts_nodup.sublist ?_
  exact List.Sublist.flatMap_right _ fun row _ => List.takeWhile_sublist _

/-- The blocks that phis name copy to the registers. -/
theorem insertAll_yields (h : Lowered c b.func regs [] fun _ => []) (hs : c.WellShaped)
    {copies : Dict BlockId (List (ValueId × ValueId))} {row : BlockId → List (ValueId × ValueId)}
    (hcopies : Gathered copies row) (hav : ∀ a, Available b.flow (row a))
    (hblocks : ∀ a, row a ≠ [] → a ∈ c.blocks) :
    (copies.entries.foldlM (fun b (block, copies) => insertCopies b block copies) b).Yields fun d =>
      b.flow.KeepsRegs d.flow ∧ ∃ moves, Lowered c d.func regs [] moves ∧
      ∀ a, Arranged b.flow d.flow (row a) (moves a) := by
  have hrow : ∀ {a ps}, (a, ps) ∈ copies.entries → row a = ps := by
    intro a ps hp
    rw [← hcopies.rows, Dict.get?_of_mem hcopies.once hp, Option.getD_some]
  refine (Run.yields_foldlM (fun done (d : Builder) => b.flow.Keeps d.flow ∧
    ∃ moves, Lowered c d.func regs [] moves ∧ (∀ a, (∀ p ∈ done, p.1 ≠ a) → moves a = []) ∧
    ∀ p ∈ done, Arranged b.flow d.flow p.2 (moves p.1)) ?_ ?_).mono ?_
  · exact ⟨.refl _, _, h, fun _ _ => rfl, fun p hp => absurd hp List.not_mem_nil⟩
  · rintro done ⟨block, ps⟩ rest d hsplit ⟨hkeeps, moves, hlow, hnone, hdone⟩
    have hmem : (block, ps) ∈ copies.entries := hsplit ▸ List.mem_append_right _ List.mem_cons_self
    have hfirst : ∀ p ∈ done, p.1 ≠ block := by
      intro p hp he
      have honce := hcopies.once
      unfold Dict.keys at honce
      rw [hsplit, List.map_append, List.map_cons] at honce
      exact (List.nodup_append.1 honce).2.2 _ (List.mem_map_of_mem hp) _ List.mem_cons_self he
    have hused : row block ≠ [] := by
      rw [hrow hmem]
      exact hcopies.used _ hmem
    have hhere : Available b.flow ps := hrow hmem ▸ hav block
    refine (insertCopies_yields hlow hs (hblocks block hused) (hnone block hfirst)
      (hhere.mono hkeeps)).mono ?_
    rintro e ⟨hkeeps', seq, harr, hlow'⟩
    refine ⟨hkeeps.trans hkeeps', _, hlow', fun a ha => ?_, fun p hp => ?_⟩
    · rw [Function.update_of_ne fun he => ha _ (List.mem_append_right _ List.mem_cons_self) he.symm]
      exact hnone a fun p hp => ha p (List.mem_append_left _ hp)
    · rcases List.mem_append.1 hp with hp | hp
      · rw [Function.update_of_ne (hfirst p hp)]
        exact (hdone p hp).mono hkeeps'.regs
      · rw [List.mem_singleton.1 hp, Function.update_self]
        exact harr.weaken hkeeps
  · rintro d ⟨hkeeps, moves, hlow, hnone, hdone⟩
    refine ⟨hkeeps.regs, moves, hlow, fun a => ?_⟩
    cases ha : copies.get? a with
    | some ps =>
      have hmem := Dict.mem_of_get? ha
      rw [hrow hmem]
      exact hdone _ hmem
    | none =>
      have hempty : row a = [] := by rw [← hcopies.rows, ha, Option.getD_none]
      have hnot : ∀ p ∈ copies.entries, p.1 ≠ a := by
        rintro ⟨a', ps⟩ hp rfl
        rw [Dict.get?_of_mem hcopies.once hp] at ha
        cases ha
      rw [hempty, hnone a hnot]
      exact .empty

theorem lowerAll_yields (h : Lowered c b.func regs [] moves) {phis : List InstId}
    (hregs : Assigned c regs phis b.flow) (hc : c.flow.Exact) (hnodup : phis.Nodup)
    (hphis : ∀ phi ∈ phis, c.flow.isPhi phi = true)
    (hmoves : ∀ phi ∈ phis, ∀ {v}, c.flow.result? phi = some v →
      ∀ a, ∀ m ∈ moves a, m.1 ≠ v ∧ m.2 ≠ v) :
    (phis.foldlM (PhiLowering.lower regs) b).Yields fun d => Lowered c d.func regs phis moves ∧
    b.flow.KeepsRegs d.flow := by
  refine Run.yields_foldlM (fun done (d : Builder) => Lowered c d.func regs done moves ∧
    b.flow.KeepsRegs d.flow) ⟨h, fun _ _ hr => hr⟩ ?_
  rintro done phi rest d hsplit ⟨hlow, hkeeps⟩
  have hmem : phi ∈ phis := hsplit ▸ List.mem_append_right _ List.mem_cons_self
  have hnew : phi ∉ done := fun hm => by
    rw [hsplit] at hnodup
    exact (List.nodup_append.1 hnodup).2.2 phi hm phi List.mem_cons_self rfl
  refine (lower_yields hlow (hregs.mono hkeeps) hc hmem (hphis phi hmem) hnew
    (hmoves phi hmem)).mono ?_
  rintro e ⟨hlow', hkeeps'⟩
  exact ⟨hlow', hkeeps.trans hkeeps'⟩

end Stages

/-- The second function is the first one with registers in place of all phis. Each block copies for
its edges what the phis at their ends take. -/
structure Translated (c d : Func) (regs : Registers) (moves : BlockId → List (ValueId × ValueId)) :
    Prop where
  lowered : Lowered c d regs c.allPhis moves
  assigned : Assigned c regs c.allPhis d.flow
  arranged : ∀ a, ∃ g, c.flow.Enriched g ∧ Assigned c regs c.allPhis g ∧
    Arranged g d.flow (blockCopies c.flow regs c.allPhis a) (moves a)

theorem Translated.refl {c : Func} (hc : c.Coherent) (hnone : c.allPhis = []) :
    Translated c c ∅ fun _ => [] where
  lowered := hnone ▸ .start hc (.refl hc.flow)
  assigned := hnone ▸ .empty
  arranged a := ⟨c.flow, .refl hc.flow, hnone ▸ .empty, by rw [hnone]; exact .empty⟩

theorem blockCopies_available {c : Func} (hc : c.Coherent) {g : DataFlow} (hg : c.flow.Enriched g)
    {regs : Registers} {phis : List InstId} (hregs : Assigned c regs phis g) (a : BlockId) :
    Available g (blockCopies c.flow regs phis a) := by
  intro p hp
  obtain ⟨phi, hphi, w, inst, v, hw, hi, he, rfl⟩ := mem_blockCopies.1 hp
  obtain ⟨w', r, hw', hr⟩ := hregs.given phi hphi
  cases hw.symm.trans hw'
  obtain ⟨o, -, ho⟩ := hregs.kind hr
  obtain ⟨o', ho'⟩ := hc.flow.operand hi (Inst.arg_of_edge he)
  refine ⟨⟨o.ty, ?_⟩, hregs.source hg ho'⟩
  rw [show inPlace regs w = r by rw [inPlace, hr, Option.getD_some]]
  exact ho

theorem Arranged.avoids {c : Func} (hc : c.Coherent) {g g' : DataFlow} (hg : c.flow.Enriched g)
    {regs : Registers} {phis : List InstId} (hregs : Assigned c regs phis g)
    (hkeep : g.KeepsRegs g') {a : BlockId} {seq : List (ValueId × ValueId)}
    (h : Arranged g g' (blockCopies c.flow regs phis a) seq) {phi : InstId} (hphi : phi ∈ phis)
    {v : ValueId} (hv : c.flow.result? phi = some v) {ty : Ty}
    (ho : g'.origin? v = some (.result ty phi)) : ∀ m ∈ seq, m.1 ≠ v ∧ m.2 ≠ v := by
  have hclash : ∀ {x ty'}, g'.origin? x = some (.reg ty') → x ≠ v := by
    rintro x ty' hx rfl
    cases hx.symm.trans ho
  have htargets := h.targets fun p hp => by
    obtain ⟨⟨ty', hr⟩, -⟩ := blockCopies_available hc hg hregs a p hp
    exact ⟨ty', hkeep _ _ hr⟩
  obtain ⟨ty', ho', -⟩ := hc.flow.result_origin hv
  intro m hm
  obtain ⟨⟨ty₁, h₁⟩, h₂⟩ := htargets m hm
  refine ⟨hclash h₁, ?_⟩
  rcases h₂ with ⟨p, hp, he⟩ | ⟨ty₂, h₂⟩
  · obtain ⟨-, -, w, inst, u, -, -, -, rfl⟩ := mem_blockCopies.1 hp
    rw [he]
    exact hregs.inPlace_ne hphi hv ho' u
  · exact hclash h₂

/-- What holds of the function and is not lost when an edge is led through a block of its own holds
of a function that is then translated. -/
theorem run_translates {b : Builder} (hc : b.func.Coherent) (hs : b.func.WellShaped)
    (hsome : b.func.isEmpty = false)
    (hphis : ∀ i, b.flow.isPhi i = true → ∃ v, b.flow.result? i = some v) {P : Func → Prop}
    (hstart : P b.func) (hstep : ∀ {g g' source target split j}, P g → g.Leads source target →
      g.Split g' source target split j → P g') :
    (run b).Yields fun r => ∃ c es via regs moves, P c ∧ b.func.Routed c es via ∧
      (∀ u v, (u, v) ∈ es ↔ b.func.Leads u v ∧ b.func.Forks u ∧ b.func.Merges v) ∧
      Translated c r.2.func regs moves := by
  unfold run
  refine (Run.yields_log (P := fun _ => True) trivial).bind fun _ _ => ?_
  rw [hsome]
  refine (splitCriticalEdges_preserves hc hs hstart hstep).bind ?_
  rintro ⟨split, c⟩ ⟨hP, es, via, hroute, hes, -, -⟩
  have hall : ∀ i, i ∈ c.func.allPhis ↔ c.flow.isPhi i = true :=
    fun i => mem_allPhis hroute.coherent hroute.shape
  dsimp only
  split
  · rename_i hnone
    exact Run.yields_pure ⟨c.func, es, via, _, _, hP, hroute, hes,
      .refl hroute.coherent (List.isEmpty_iff.1 hnone)⟩
  have hyields : ∀ phi ∈ c.func.allPhis, ∃ v, c.flow.result? phi = some v := by
    intro phi hphi
    obtain ⟨hphi, hresult⟩ := hroute.phis ((hall phi).1 hphi)
    obtain ⟨v, hv⟩ := hphis phi hphi
    exact ⟨v, hresult.trans hv⟩
  refine (addRegisters_yields hroute.coherent.flow hyields).bind ?_
  rintro ⟨b₁, regs⟩ ⟨hfunc, hflow, hregs⟩
  have hrows : blockCopies b₁.flow regs c.func.allPhis =
      blockCopies c.flow regs c.func.allPhis := by
    unfold blockCopies edgeCopies
    simp only [hflow.result?, hflow.inst?]
  have hready : ∀ phi ∈ c.func.allPhis, ∃ v r inst, b₁.flow.result? phi = some v ∧
      regs.get? v = some r ∧ b₁.flow.inst? phi = some inst := by
    intro phi hphi
    obtain ⟨v, r, hv, hr⟩ := hregs.given phi hphi
    obtain ⟨inst, hi⟩ := DataFlow.inst_of_isPhi ((hall phi).1 hphi)
    exact ⟨v, r, inst, (hflow.result? phi).trans hv, hr, (hflow.inst? phi).trans hi⟩
  obtain ⟨copies, hgather, hcopies⟩ := gatherCopies_ok hready
  rw [hrows] at hcopies
  refine (Run.yields_lift ⟨copies, hgather, rfl⟩).bind ?_
  rintro _ rfl
  have hlow : Lowered c.func b₁.func regs [] fun _ => [] := hfunc ▸ .start hroute.coherent hflow
  refine (insertAll_yields hlow hroute.shape hcopies
    (blockCopies_available hroute.coherent hflow hregs)
    fun a ha => ?_).bind ?_
  · obtain ⟨p, hp⟩ := List.exists_mem_of_ne_nil _ ha
    obtain ⟨phi, -, w, inst, v, -, hi, he, -⟩ := mem_blockCopies.1 hp
    exact hroute.shape.targets hi _ (Inst.block_of_edge he)
  rintro b₂ ⟨hkeep, moves, hlow₂, harr⟩
  refine (lowerAll_yields hlow₂ (hregs.mono hkeep) hroute.coherent.flow
    (allPhis_nodup hroute.coherent) (fun phi hphi => (hall phi).1 hphi) fun phi hphi v hv a =>
    ?_).bind ?_
  · obtain ⟨ty, ho, -⟩ := hroute.coherent.flow.result_origin hv
    exact (harr a).avoids hroute.coherent hflow hregs hkeep hphi hv
      (hlow₂.origin? ho fun _ hm => absurd hm List.not_mem_nil)
  · rintro d ⟨hlow₃, hkeep₃⟩
    exact Run.yields_pure ⟨c.func, es, via, regs, moves, hP, hroute, hes, hlow₃,
      hregs.mono (hkeep.trans hkeep₃),
      fun a => ⟨b₁.flow, hflow, hregs, (harr a).mono hkeep₃⟩⟩

end PhiLowering

end MiddleEnd
