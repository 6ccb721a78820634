import MiddleEnd.Proofs.EdgeRecords

/-!
# Functions that can be read

A builder accepts much that makes no sense: empty blocks, code behind terminators, branches to
blocks that are not there, phis with more values than blocks, operands of any type. What it never
lets go wrong is what a reader needs: the records of the graph and the layout agree with the
instructions. Two things are left to the caller, for instructions that come whole: the form fits the
operation, and a call names a function that is known.
-/

namespace MiddleEnd

/-- The instruction comes in the form its operation is meant to have, and the function it calls is
known. -/
structure Inst.Legible (inst : Inst) (g : DataFlow) : Prop where
  form : Verify.formFits inst = true
  callee : ∀ {f}, inst.callee? = some f → ∃ target, g.imports.get? f = some target

theorem Inst.legible_iff {inst : Inst} {g : DataFlow} :
    inst.Legible g ↔ Verify.formFits inst = true ∧ inst.callee?.all
      (fun f => (g.imports.get? f).isSome) = true := by
  constructor
  · intro h
    refine ⟨h.form, ?_⟩
    cases hf : inst.callee? with
    | none => rfl
    | some f => exact Option.isSome_iff_exists.2 (h.callee hf)
  · rintro ⟨hform, hcallee⟩
    refine ⟨hform, fun {f} hf => ?_⟩
    rw [hf] at hcallee
    exact Option.isSome_iff_exists.1 hcallee

instance (inst : Inst) (g : DataFlow) : Decidable (inst.Legible g) :=
  decidable_of_iff _ Inst.legible_iff.symm

theorem Inst.formFits_frame (inst : Inst) : Verify.formFits inst.frame = Verify.formFits inst := by
  cases inst <;> rfl

theorem Inst.Legible.of_frame {inst inst' : Inst} {g g' : DataFlow} (h : inst.Legible g)
    (hframe : inst'.frame = inst.frame)
    (himports : ∀ {f target}, g.imports.get? f = some target → g'.imports.get? f = some target) :
    inst'.Legible g' where
  form := by
    rw [← Inst.formFits_frame, hframe, Inst.formFits_frame]
    exact h.form
  callee hf := by
    rw [Inst.callee?_of_frame hframe] at hf
    obtain ⟨target, ht⟩ := h.callee hf
    exact ⟨target, himports ht⟩

namespace DataFlow

variable {g g' : DataFlow}

def Legible (g : DataFlow) : Prop := ∀ {i inst}, g.inst? i = some inst → inst.Legible g

theorem Legible.phisMerge (h : g.Legible) : g.PhisMerge := fun hi => of_decide_eq_true (h hi).form

theorem Kept.legible (hk : Kept g g') (h : g.Legible) : g'.Legible := by
  intro i inst hi
  obtain ⟨old, hold, hframe⟩ := hk.inst_of hi
  exact (h hold).of_frame hframe hk.imports

theorem Grown.legible {i : InstId} {inst : Inst} {ty : Ty} {v? : Option ValueId}
    (hg : Grown g g' i inst ty v?) (hinst : inst.Legible g) (h : g.Legible) : g'.Legible := by
  have himports : ∀ {f target}, g.imports.get? f = some target →
      g'.imports.get? f = some target := by
    intro f target hf
    rw [hg.imports]
    exact hf
  intro j jnst hj
  rcases hg.inst_cases hj with ⟨-, rfl⟩ | ⟨-, hj⟩
  · exact hinst.of_frame rfl himports
  · exact (h hj).of_frame rfl himports

theorem Shrunk.legible {i : InstId} (hs : Shrunk g g' i) (h : g.Legible) : g'.Legible := by
  intro j jnst hj
  refine (h (hs.inst_of hj).2).of_frame rfl fun hf => ?_
  rw [hs.imports]
  exact hf

end DataFlow

namespace Func

/-- What a reader of a function relies on. -/
structure Readable (f : Func) : Prop where
  flow : f.flow.Recorded
  legible : f.flow.Legible
  arranged : f.Arranged

variable {f : Func}

theorem Readable.filed (h : f.Readable) : f.Filed := ⟨h.flow, h.arranged⟩

theorem new_readable (name : String) (sig : Signature) : (new name sig).Readable :=
  ⟨(new_coherent name sig).flow.recorded, fun hi => absurd hi Builder.new_inst?,
    (new_coherent name sig).arranged⟩

theorem Readable.kept (h : f.Readable) {g : DataFlow} (hg : g.Recorded)
    (hk : DataFlow.Kept f.flow g) :
    ({ f with flow := g } : Func).Readable :=
  ⟨hg, hk.legible h.legible, h.arranged.layout,
    fun i => (h.arranged.placed i).trans (hk.exists_inst i).symm, h.arranged.known⟩

end Func

namespace Builder

variable {b b' : Builder}

/-- The function can be read, and it is still called what it was. -/
structure Rebuilt (b b' : Builder) : Prop where
  readable : b'.func.Readable
  name : b'.func.name = b.func.name

theorem Rebuilt.trans {b'' : Builder} (h : Rebuilt b b') (h' : Rebuilt b' b'') : Rebuilt b b'' :=
  ⟨h'.readable, h'.name.trans h.name⟩

theorem insert_rebuilds (h : b.func.Readable) {inst : Inst} {ty : Ty} {i : InstId}
    (hinst : inst.Legible b.flow) (hi : b.insert inst ty = .ok (i, b')) : Rebuilt b b' := by
  obtain ⟨hflow, harranged⟩ := insert_filed h.filed hi
  obtain ⟨⟨i', g⟩, hadd, hi⟩ := bind_eq_ok.1 hi
  obtain ⟨⟨pos, l⟩, hplace, hi⟩ := bind_eq_ok.1 hi
  cases hi
  obtain ⟨-, v?, hgrown⟩ := h.flow.addInst hadd
  exact ⟨⟨hflow, hgrown.legible hinst h.legible, harranged⟩, rfl⟩

theorem removeInst_rebuilds (h : b.func.Readable) {i : InstId} (hr : b.removeInst i = .ok b') :
    Rebuilt b b' := by
  obtain ⟨hflow, harranged⟩ := removeInst_filed h.filed hr
  obtain ⟨pos, -, hr⟩ := bind_eq_ok.1 hr
  obtain ⟨l, hl, hr⟩ := bind_eq_ok.1 hr
  obtain ⟨g, hg, hr⟩ := bind_eq_ok.1 hr
  cases hr
  exact ⟨⟨hflow, (h.flow.removeInst hg).2.legible h.legible, harranged⟩, rfl⟩

theorem Step.rebuilds (hs : Step (fun inst _ g => inst.Legible g) b b') (h : b.func.Readable) :
    Rebuilt b b' := by
  cases hs with
  | edit change hc hg =>
    have hmerge : b.flow.PhisMerge := DataFlow.Legible.phisMerge h.legible
    exact ⟨h.kept (DataFlow.Change.apply_recorded h.flow hc hg)
      (DataFlow.Change.apply_kept hmerge hc hg), rfl⟩
  | declare name sig =>
    exact ⟨h.kept (h.flow.addImport name sig) (DataFlow.addImport_kept b.flow name sig), rfl⟩
  | goTo => exact ⟨h, rfl⟩
  | insert _ hinst hi => exact insert_rebuilds h hinst hi
  | remove hr => exact removeInst_rebuilds h hr
  | block hb =>
    obtain ⟨l, hl, hb⟩ := bind_eq_ok.1 hb
    cases hb
    exact ⟨⟨h.flow, h.legible, h.arranged.widen _ (Layout.appendBlock_widened hl)⟩, rfl⟩
  | blockAfter hb =>
    obtain ⟨l, hl, hb⟩ := bind_eq_ok.1 hb
    cases hb
    exact ⟨⟨h.flow, h.legible, h.arranged.widen _ (Layout.insertBlockAfter_widened hl)⟩, rfl⟩
  | nameBlock hn =>
    obtain ⟨table, ht, hn⟩ := bind_eq_ok.1 hn
    cases hn
    exact ⟨⟨h.flow, h.legible, h.arranged.nameBlock ht⟩, rfl⟩
  | dropBlock _ _ hg hl ht =>
    have hkept := DataFlow.forgetBlock_kept hg
    have hsame := (h.flow.forgetBlock hg).1.touch
    refine ⟨⟨hsame, hkept.legible h.legible, h.arranged.dropBlock (fun i => ?_) hl ht⟩, rfl⟩
    exact DataFlow.inst?_of_insts (DataFlow.insts_of_forgetBlock hg) i

theorem Steps.rebuilds (hs : Steps (fun inst _ g => inst.Legible g) b b') (h : b.func.Readable) :
    Rebuilt b b' := by
  induction hs with
  | refl => exact ⟨h, rfl⟩
  | tail _ hstep ih => exact ih.trans (hstep.rebuilds ih.readable)

theorem moveToEnd_rebuilds (h : b.func.Readable) {i : InstId} {c : BlockId}
    (hm : b.moveToEnd i c = .ok b') :
    Rebuilt b b' := by
  obtain ⟨-, harranged⟩ := moveToEnd_filed h.filed hm
  obtain ⟨pos, -, hm⟩ := bind_eq_ok.1 hm
  obtain ⟨l, hl, hm⟩ := bind_eq_ok.1 hm
  obtain ⟨l', hl', hm⟩ := bind_eq_ok.1 hm
  cases hm
  exact ⟨⟨h.flow, h.legible, harranged⟩, rfl⟩

/-- Instructions that come whole can be read, casts are made by casting operations, and edits of the
graph leave the instructions where they are. -/
def Action.Legible (b : Builder) : Action → Prop
  | .build _ order => order.fits = true
  | .insert inst _ => inst.Legible b.flow
  | .edit change => change.inPlace = true
  | _ => True

instance (b : Builder) (a : Action) : Decidable (Action.Legible b a) :=
  match a with
  | .build _ order => inferInstanceAs (Decidable (order.fits = true))
  | .insert inst _ => inferInstanceAs (Decidable (inst.Legible b.flow))
  | .edit change => inferInstanceAs (Decidable (change.inPlace = true))
  | .block _ | .blockAfter _ _ | .nameBlock _ _ | .goTo _ | .atTerminator _ | .atPhisEnd _ |
    .remove _ | .delete _
  | .prune _ | .moveToEnd _ _ | .removeBlock _ | .declare _ _ => isTrue trivial

theorem Action.Legible.offered {a : Action} (ha : a.Legible b) : a.Offered b := by
  cases a with
  | insert inst ty => trivial
  | _ => exact ha

theorem Action.rebuilds {a : Action} (h : b.func.Readable) (ha : a.Legible b)
    (hb : a.apply b = .ok b') :
    Rebuilt b b' := by
  have hemitted : ∀ {name? inst ty i}, Emitted b b' name? inst ty i → inst.Legible b.flow := by
    intro name? inst ty i he
    refine ⟨he.form, fun hf => ?_⟩
    obtain ⟨target, ht, -⟩ := he.callee hf
    exact ⟨target, ht⟩
  rcases Action.parts hemitted ha.offered hb with hsteps | ⟨pos, rfl⟩ | ⟨inst, ty,
    rfl⟩ | ⟨i, c, rfl⟩
  · exact hsteps.rebuilds h
  · cases hb
    exact ⟨h, rfl⟩
  · obtain ⟨i, hi⟩ := snd_eq_ok.1 hb
    exact insert_rebuilds h ha hi
  · exact moveToEnd_rebuilds h hb

theorem History.rebuilds (hh : History Action.Legible b b') (h : b.func.Readable) :
    Rebuilt b b' := by
  induction hh with
  | refl => exact ⟨h, rfl⟩
  | tail _ hlast ih =>
    obtain ⟨a, ha, hb⟩ := hlast
    exact ih.trans (Action.rebuilds ih.readable ha hb)

end Builder

end MiddleEnd
