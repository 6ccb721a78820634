import MiddleEnd.Proofs.EdgeRecords
import MiddleEnd.Proofs.Revisions

/-!
# Tables of imports

What linking relies on, and what every operation of a builder keeps: no name is imported twice,
whatever is called is imported, and a function keeps its name. Imports are never taken back,
whatever becomes of the calls they were made for.
-/

namespace MiddleEnd

/-- The function that an instruction calls, if it calls one, is imported. -/
def Inst.Knows (inst : Inst) (g : DataFlow) : Prop :=
  ∀ c, inst.callee? = some c → ∃ target, g.imports.get? c = some target

instance (inst : Inst) (g : DataFlow) : Decidable (inst.Knows g) :=
  decidable_of_iff (inst.callee?.all (fun c => (g.imports.get? c).isSome) = true) <| by
    unfold Inst.Knows
    cases inst.callee? with
    | none => simp
    | some c => simp [Option.isSome_iff_exists]

namespace DataFlow

/-- No name is imported twice, and all that is called is imported. -/
structure Linkable (g : DataFlow) : Prop where
  apart : ∀ {c c' target target'}, g.imports.get? c = some target →
    g.imports.get? c' = some target' →
    target.name = target'.name → c = c'
  known : ∀ {i inst}, g.inst? i = some inst → inst.Knows g

variable {g g' : DataFlow}

theorem Linkable.congr (h : g.Linkable) (himports : g'.imports = g.imports)
    (hknown : ∀ {i inst}, g'.inst? i = some inst → inst.Knows g) : g'.Linkable := by
  refine ⟨fun hc hc' he => ?_, fun hi c hc => ?_⟩
  · rw [himports] at hc hc'
    exact h.apart hc hc' he
  · rw [himports]
    exact hknown hi c hc

theorem Framed.linkable (hf : Framed g g') (h : g.Linkable) : g'.Linkable := by
  refine h.congr hf.imports fun hi c hc => ?_
  obtain ⟨old, hold, hframe⟩ := hf.inst_of hi
  rw [← Inst.callee?_of_frame hframe] at hc
  exact h.known hold c hc

theorem addInst_linkable (h : g.Linkable) {inst : Inst} {ty : Ty} {i : InstId}
    (hinst : inst.Knows g) (hg : g.addInst inst ty = .ok (i, g')) : g'.Linkable := by
  obtain ⟨j, g'', v?, hadd, hgrown, -⟩ := addInst_grows ty (args_of_addInst hg)
  rw [hg] at hadd
  cases hadd
  refine h.congr hgrown.imports fun hj => ?_
  rcases hgrown.inst_cases hj with ⟨-, rfl⟩ | ⟨-, hold⟩
  · exact hinst
  · exact h.known hold

theorem removeInst_linkable (h : g.Linkable) {i : InstId} (hg : g.removeInst i = .ok g') :
    g'.Linkable := by
  obtain ⟨_, -, hshrunk, -⟩ := removeInst_shrinks hg
  exact h.congr hshrunk.imports fun hj => h.known (hshrunk.inst_of hj).2

theorem addImport_linkable (h : g.Linkable) (name : String) (sig : Signature) :
    (g.addImport name sig).2.Linkable := by
  unfold addImport
  split
  · exact h
  · rename_i hnone
    have hfresh : ∀ {c target}, g.imports.get? c = some target → target.name ≠ name := fun hc he =>
      List.find?_eq_none.1 hnone _ (Table.mem_toList.2 hc) (decide_eq_true he)
    constructor
    · intro c c' target target' hc hc' he
      rw [Table.get?_add] at hc hc'
      split at hc <;> split at hc'
      · rename_i hk hk'
        exact Key.index_inj (hk.trans hk'.symm)
      · cases hc
        exact absurd he.symm (hfresh hc')
      · cases hc'
        exact absurd he (hfresh hc)
      · exact h.apart hc hc' he
    · intro i inst hi c hc
      obtain ⟨target, ht⟩ := h.known hi c hc
      exact ⟨target, Table.get?_add_of_some ht⟩

end DataFlow

/-- The function has this name and what linking relies on. -/
structure Func.Linkable (f : Func) (name : String) : Prop where
  name : f.name = name
  flow : f.flow.Linkable

theorem Func.new_linkable (name : String) (sig : Signature) : (new name sig).Linkable name := by
  have himports : (DataFlow.ofSignature sig).imports = {} :=
    foldl_induct (fun _ (g : DataFlow) => g.imports = {}) rfl fun _ _ _ _ _ h => h
  refine ⟨rfl, fun {c c' target target'} hc _ _ => ?_, fun hi => absurd hi Builder.new_inst?⟩
  have hc : (DataFlow.ofSignature sig).imports.get? c = some target := hc
  rw [himports] at hc
  cases hc

namespace Builder

variable {b b' : Builder} {name : String}

theorem insert_linkable (h : b.func.Linkable name) {inst : Inst} {ty : Ty} {i : InstId}
    (hinst : inst.Knows b.flow) (hi : b.insert inst ty = .ok (i, b')) : b'.func.Linkable name := by
  obtain ⟨⟨j, g⟩, hadd, hi⟩ := bind_eq_ok.1 hi
  obtain ⟨⟨pos, l⟩, -, hi⟩ := bind_eq_ok.1 hi
  cases hi
  exact ⟨h.name, DataFlow.addInst_linkable h.flow hinst hadd⟩

theorem removeInst_linkable (h : b.func.Linkable name) {i : InstId} (hr : b.removeInst i = .ok b') :
    b'.func.Linkable name := by
  obtain ⟨pos, -, hr⟩ := bind_eq_ok.1 hr
  obtain ⟨l, -, hr⟩ := bind_eq_ok.1 hr
  obtain ⟨g, hg, hr⟩ := bind_eq_ok.1 hr
  cases hr
  exact ⟨h.name, DataFlow.removeInst_linkable h.flow hg⟩

theorem Step.linkable (hs : Step (fun inst _ g => inst.Knows g) b b') (h : b.func.Linkable name) :
    b'.func.Linkable name := by
  cases hs with
  | edit change hc hg => exact ⟨h.name, (DataFlow.Change.apply_framed hc hg).linkable h.flow⟩
  | declare callee sig => exact ⟨h.name, DataFlow.addImport_linkable h.flow callee sig⟩
  | goTo => exact h
  | insert _ hinst hi => exact insert_linkable h hinst hi
  | remove hr => exact removeInst_linkable h hr
  | block hb =>
    obtain ⟨l, -, hb⟩ := bind_eq_ok.1 hb
    cases hb
    exact ⟨h.name, h.flow⟩
  | blockAfter hb =>
    obtain ⟨l, -, hb⟩ := bind_eq_ok.1 hb
    cases hb
    exact ⟨h.name, h.flow⟩
  | nameBlock hn =>
    obtain ⟨table, -, hn⟩ := bind_eq_ok.1 hn
    cases hn
    exact ⟨h.name, h.flow⟩
  | dropBlock _ _ hg => exact ⟨h.name, (DataFlow.forgetBlock_framed hg).linkable h.flow⟩

theorem Steps.linkable (hs : Steps (fun inst _ g => inst.Knows g) b b') (h : b.func.Linkable name) :
    b'.func.Linkable name := by
  induction hs with
  | refl => exact h
  | tail _ hstep ih => exact hstep.linkable ih

theorem moveToEnd_linkable (h : b.func.Linkable name) {i : InstId} {c : BlockId}
    (hm : b.moveToEnd i c = .ok b') :
    b'.func.Linkable name := by
  obtain ⟨pos, -, hm⟩ := bind_eq_ok.1 hm
  obtain ⟨l, -, hm⟩ := bind_eq_ok.1 hm
  obtain ⟨l', -, hm⟩ := bind_eq_ok.1 hm
  cases hm
  exact ⟨h.name, h.flow⟩

/-- What is called is imported first, casts are made by casting operations, and edits of the graph
leave the instructions where they are. -/
def Action.Declared (b : Builder) : Action → Prop
  | .build _ order => order.fits = true
  | .insert inst _ => inst.Knows b.flow
  | .edit change => change.inPlace = true
  | _ => True

instance (b : Builder) (a : Action) : Decidable (Action.Declared b a) :=
  match a with
  | .build _ order => inferInstanceAs (Decidable (order.fits = true))
  | .insert inst _ => inferInstanceAs (Decidable (inst.Knows b.flow))
  | .edit change => inferInstanceAs (Decidable (change.inPlace = true))
  | .block _ | .blockAfter _ _ | .nameBlock _ _ | .goTo _ | .atTerminator _ | .atPhisEnd _ |
    .remove _ | .delete _
  | .prune _ | .moveToEnd _ _ | .removeBlock _ | .declare _ _ => isTrue trivial

theorem Action.Declared.offered {a : Action} (ha : a.Declared b) : a.Offered b := by
  cases a with
  | insert inst ty => trivial
  | _ => exact ha

theorem Action.linkable {a : Action} (h : b.func.Linkable name) (ha : a.Declared b)
    (hb : a.apply b = .ok b') :
    b'.func.Linkable name := by
  have hemitted : ∀ {name? inst ty i}, Emitted b b' name? inst ty i → inst.Knows b.flow := by
    intro name? inst ty i he c hc
    obtain ⟨target, ht, -⟩ := he.callee hc
    exact ⟨target, ht⟩
  rcases Action.parts hemitted ha.offered hb with hsteps | ⟨pos, rfl⟩ | ⟨inst, ty,
    rfl⟩ | ⟨i, c, rfl⟩
  · exact hsteps.linkable h
  · cases hb
    exact h
  · obtain ⟨i, hi⟩ := snd_eq_ok.1 hb
    exact insert_linkable h ha hi
  · exact moveToEnd_linkable h hb

theorem History.linkable (hh : History Action.Declared b b') (h : b.func.Linkable name) :
    b'.func.Linkable name := by
  induction hh with
  | refl => exact h
  | tail _ hlast ih =>
    obtain ⟨a, ha, hb⟩ := hlast
    exact Action.linkable ih ha hb

theorem Action.Revises.declared {a : Action} (ha : a.Revises b) (h : b.flow.Linkable) :
    a.Declared b := by
  cases a with
  | build name? order =>
    cases order with
    | call callee args => exact absurd ha id
    | _ => exact ha
  | insert inst ty =>
    intro c hc
    obtain ⟨i, old, hold, hcallee⟩ := ha c hc
    exact h.known hold c hcallee
  | declare callee sig => exact absurd ha id
  | _ => exact ha

theorem Revised.linkable (hr : Revised b b') (h : b.func.Linkable name) :
    b'.func.Linkable name := by
  induction hr with
  | refl => exact h
  | tail _ hlast ih =>
    obtain ⟨a, ha, hb⟩ := hlast
    exact Action.linkable ih (ha.declared ih.flow) hb

end Builder

theorem Func.Revised.linkable {f f' : Func} {name : String} (hr : f.Revised f')
    (h : f.Linkable name) :
    f'.Linkable name := by
  obtain ⟨b, hb, rfl⟩ := hr
  exact hb.linkable h

end MiddleEnd
