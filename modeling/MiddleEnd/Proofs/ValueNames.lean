import Mathlib.Data.Finset.Card
import MiddleEnd.Proofs.BuilderHistories

/-!
# Names of values

Any number of values may carry one name. How many do stands in a table of its own, and every
renaming and every removal has to keep it up. The table is right whatever is done to a function. And
as long as only values that are there are given names, a name goes with its value.
-/

namespace MiddleEnd

namespace DataFlow

variable {g g' g'' : DataFlow} {v w : ValueId} {name : String}

def nameCount (g : DataFlow) (name : String) : Nat := (g.nameCounts.get? name).getD 0

def Counted (g : DataFlow) : Prop :=
  ∀ name, ∃ carriers : Finset ValueId, (∀ v, v ∈ carriers ↔ g.name? v = some name) ∧
    g.nameCount name = carriers.card

def Present (g : DataFlow) : Prop := ∀ {v name}, g.name? v = some name → ∃ o, g.origin? v = some o

theorem hasValue_iff : g.hasValue v = true ↔ ∃ o, g.origin? v = some o := by
  rw [hasValue, Table.contains_iff]
  constructor
  · rintro ⟨e, he⟩
    exact ⟨e.origin, origin?_eq_some.2 ⟨e, he, rfl⟩⟩
  · rintro ⟨o, ho⟩
    obtain ⟨e, he, -⟩ := origin?_eq_some.1 ho
    exact ⟨e, he⟩

theorem name?_clearName (g : DataFlow) (v w : ValueId) :
    (g.clearName v).2.name? w = if v = w then none else g.name? w := by
  unfold clearName
  split
  · rename_i hv
    by_cases hvw : v = w
    · subst hvw
      rw [if_pos rfl]
      exact hv
    · rw [if_neg hvw]
  · exact Dict.get?_erase g.names v w

theorem nameCount_clearName (g : DataFlow) (v : ValueId) (name : String) :
    (g.clearName v).2.nameCount name = g.nameCount name - if g.name? v =
      some name then 1 else 0 := by
  unfold clearName name?
  split
  · rename_i hv
    rw [hv]
    simp
  · rename_i old hv
    simp only [hv, Option.some.injEq, nameCount]
    by_cases hold : old = name
    · subst hold
      cases hcount : g.nameCounts.get? old with
      | none => simp [hcount]
      | some count =>
        by_cases hone : count = 1
        · simp [hone]
        · simp [hone]
    · rw [if_neg hold, Nat.sub_zero]
      split
      · split <;> simp [hold]
      · rfl

theorem name?_setName (g : DataFlow) (v : ValueId) (name : String) (w : ValueId) :
    (g.setName v name).name? w = if v = w then some name else g.name? w := by
  have hinsert : (g.setName v name).name? w = if v =
      w then some name else (g.clearName v).2.name? w :=
    Dict.get?_insert (g.clearName v).2.names v w name
  rw [hinsert, name?_clearName]
  split <;> rfl

theorem nameCount_setName (g : DataFlow) (v : ValueId) (name other : String) :
    (g.setName v name).nameCount other = (g.clearName v).2.nameCount other + if name =
      other then 1 else 0 := by
  have hinsert : (g.setName v name).nameCount other =
      (if name = other then some ((g.clearName v).2.nameCount name + 1)
        else (g.clearName v).2.nameCounts.get? other).getD 0 :=
    congrArg (Option.getD · 0) (Dict.get?_insert _ name other _)
  rw [hinsert]
  by_cases he : name = other
  · rw [if_pos he, if_pos he, he]
    rfl
  · rw [if_neg he, if_neg he]
    rfl

theorem Counted.clearName (h : g.Counted) (v : ValueId) : (g.clearName v).2.Counted := by
  intro name
  obtain ⟨carriers, hmem, hcard⟩ := h name
  refine ⟨carriers.erase v, fun w => ?_, ?_⟩
  · rw [Finset.mem_erase, hmem, name?_clearName]
    by_cases hvw : v = w
    · simp [hvw]
    · simp [hvw, Ne.symm hvw]
  · rw [nameCount_clearName, hcard]
    by_cases hv : g.name? v = some name
    · rw [if_pos hv, Finset.card_erase_of_mem ((hmem v).2 hv)]
    · rw [if_neg hv, Finset.erase_eq_of_notMem (fun hc => hv ((hmem v).1 hc)), Nat.sub_zero]

theorem Counted.setName (h : g.Counted) (v : ValueId) (name : String) :
    (g.setName v name).Counted := by
  intro other
  obtain ⟨carriers, hmem, hcard⟩ := h.clearName v other
  have hfree : v ∉ carriers := by
    rw [hmem, name?_clearName, if_pos rfl]
    intro hv
    cases hv
  have hname : ∀ w, (g.setName v name).name? w = if v =
      w then some name else (g.clearName v).2.name? w := by
    intro w
    rw [name?_setName, name?_clearName]
    split <;> rfl
  rw [nameCount_setName, hcard]
  by_cases he : name = other
  · refine ⟨insert v carriers, fun w => ?_, ?_⟩
    · rw [Finset.mem_insert, hmem, hname]
      by_cases hvw : v = w
      · simp [hvw, he]
      · simp [hvw, Ne.symm hvw]
    · rw [if_pos he, Finset.card_insert_of_notMem hfree]
  · refine ⟨carriers, fun w => ?_, ?_⟩
    · rw [hmem, hname]
      by_cases hvw : v = w
      · simp [← hvw, he, name?_clearName]
      · simp [hvw]
    · rw [if_neg he, Nat.add_zero]

theorem Counted.isNameShared_iff (h : g.Counted) (hv : g.name? v = some name) :
    g.isNameShared v = true ↔ ∃ w, w ≠ v ∧ g.name? w = some name := by
  obtain ⟨carriers, hmem, hcard⟩ := h name
  have hshared : g.isNameShared v = decide (1 < g.nameCount name) := by
    have hname : g.names.get? v = some name := hv
    unfold isNameShared
    rw [hname]
    rfl
  rw [hshared, decide_eq_true_eq, hcard]
  constructor
  · intro hmany
    obtain ⟨w, hw, hne⟩ := Finset.exists_mem_ne hmany v
    exact ⟨w, hne, (hmem w).1 hw⟩
  · rintro ⟨w, hne, hw⟩
    exact Finset.one_lt_card.2 ⟨w, (hmem w).2 hw, v, (hmem v).2 hv, hne⟩

/-- The second graph has the names of the first one and at least its values. -/
structure SameNames (g g' : DataFlow) : Prop where
  names : g'.names = g.names
  counts : g'.nameCounts = g.nameCounts
  values : ∀ {v o}, g.origin? v = some o → g'.origin? v = some o

namespace SameNames

theorem refl (g : DataFlow) : SameNames g g := ⟨rfl, rfl, fun ho => ho⟩

theorem trans (h : SameNames g g') (h' : SameNames g' g'') : SameNames g g'' :=
  ⟨h'.names.trans h.names, h'.counts.trans h.counts, fun ho => h'.values (h.values ho)⟩

theorem name? (h : SameNames g g') (v : ValueId) : g'.name? v = g.name? v := by
  rw [DataFlow.name?, h.names, DataFlow.name?]

theorem counted (h : SameNames g g') (hg : g.Counted) : g'.Counted := by
  intro name
  obtain ⟨carriers, hmem, hcard⟩ := hg name
  refine ⟨carriers, fun v => ?_, ?_⟩
  · rw [hmem, h.name?]
  · rw [nameCount, h.counts]
    exact hcard

theorem present (h : SameNames g g') (hg : g.Present) : g'.Present := by
  intro v name hv
  rw [h.name?] at hv
  obtain ⟨o, ho⟩ := hg hv
  exact ⟨o, h.values ho⟩

theorem linkUse {fault : Fault} {i : InstId} (h : g.linkUse fault v i = .ok g') :
    SameNames g g' := by
  have husers := usersOnly_of_linkUse h
  unfold DataFlow.linkUse at h
  split at h
  · cases h
    exact ⟨rfl, rfl, fun ho => (husers.origins _).trans ho⟩
  · cases h

theorem unlinkBlock (g : DataFlow) (b : BlockId) (i : InstId) :
    SameNames g (g.unlinkBlock b i) := by
  unfold DataFlow.unlinkBlock
  split
  · exact ⟨rfl, rfl, fun ho => ho⟩
  · exact refl g

theorem editing : Editing SameNames where
  refl := refl
  trans := trans
  linkUse := linkUse
  unlinkUse g v i := ⟨rfl, rfl, fun ho => ((unlinkUse_spec g v i).1.origins _).trans ho⟩
  linkBlock _ _ _ := ⟨rfl, rfl, fun ho => ho⟩
  unlinkBlock := unlinkBlock
  addValue _ o := ⟨rfl, rfl, fun ho => origin?_addValue_of_some o ho⟩
  insts _ _ := ⟨rfl, rfl, fun ho => ho⟩
  touch _ := ⟨rfl, rfl, fun ho => ho⟩

theorem addImport (g : DataFlow) (callee : String) (sig : Signature) :
    SameNames g (g.addImport callee sig).2 := by
  unfold DataFlow.addImport
  split
  · exact refl g
  · exact ⟨rfl, rfl, fun ho => ho⟩

theorem forgetBlock {b : BlockId} (h : g.forgetBlock b = .ok g') : SameNames g g'.touch := by
  unfold DataFlow.forgetBlock at h
  split at h
  · cases h
    exact ⟨rfl, rfl, fun ho => ho⟩
  · cases h

end SameNames

theorem origin?_clearName (g : DataFlow) (v w : ValueId) :
    (g.clearName v).2.origin? w = g.origin? w := by
  rw [origin?, (clearName_spec g v).2.1, origin?]

theorem Present.clearName (h : g.Present) (v : ValueId) : (g.clearName v).2.Present := by
  intro w name hw
  rw [name?_clearName] at hw
  split at hw
  · cases hw
  · rw [origin?_clearName]
    exact h hw

theorem Present.setName (h : g.Present) {o : ValueDef} (hv : g.origin? v = some o) (name : String) :
    (g.setName v name).Present := by
  intro w other hw
  have horigin : (g.setName v name).origin? w = g.origin? w := origin?_clearName g v w
  rw [name?_setName] at hw
  rw [horigin]
  split at hw
  · rename_i hvw
    subst hvw
    exact ⟨o, hv⟩
  · exact h hw

/-- The table of names stays right, and names stay with values that are there. -/
structure KeepsNames (g g' : DataFlow) : Prop where
  counted : g.Counted → g'.Counted
  present : g.Present → g'.Present

theorem KeepsNames.trans (h : KeepsNames g g') (h' : KeepsNames g' g'') : KeepsNames g g'' :=
  ⟨fun hg => h'.counted (h.counted hg), fun hg => h'.present (h.present hg)⟩

theorem SameNames.keeps (h : SameNames g g') : KeepsNames g g' := ⟨h.counted, h.present⟩

theorem clearName_keeps (g : DataFlow) (v : ValueId) : KeepsNames g (g.clearName v).2 :=
  ⟨fun h => h.clearName v, fun h => h.clearName v⟩

theorem setName_keeps {o : ValueDef} (hv : g.origin? v = some o) (name : String) :
    KeepsNames g (g.setName v name) :=
  ⟨fun h => h.setName v name, fun h => h.setName hv name⟩

theorem remove_keeps {values : Table ValueId ValueEntry} {e : ValueEntry}
    (h : g.values.remove v = .ok (e, values)) :
    KeepsNames g (({ g with values } : DataFlow).clearName v).2 := by
  refine ⟨fun hg => Counted.clearName (g := { g with values }) hg v, fun hg w name hw => ?_⟩
  rw [name?_clearName] at hw
  split at hw
  · cases hw
  · rename_i hne
    obtain ⟨o, ho⟩ := hg hw
    obtain ⟨-, -, hget⟩ := Table.remove_eq_ok h
    refine ⟨o, ?_⟩
    rw [origin?_clearName, ← ho, origin?, origin?]
    show (values.get? w).map _ = _
    rw [hget, if_neg (Ne.symm hne)]

theorem removeInst_keeps {i : InstId} (h : g.removeInst i = .ok g') : KeepsNames g g' := by
  rcases removeInst_parts h with ⟨-, hdetach⟩ | ⟨v, e, values, -, -, hvalues, hdetach⟩
  · exact (SameNames.editing.detach hdetach).keeps
  · exact (remove_keeps hvalues).trans (SameNames.editing.detach hdetach).keeps

theorem origin_of_addInst {inst : Inst} {ty : Ty} {i : InstId} (h : g.addInst inst ty = .ok (i, g'))
    (hv : g'.result? i = some v) : g'.origin? v = some (.result ty i) := by
  obtain ⟨j, g'', v?, hadd, hgrown, -⟩ := addInst_grows ty (args_of_addInst h)
  rw [h] at hadd
  cases hadd
  rw [hgrown.result?, if_pos rfl] at hv
  rw [hgrown.origin?, if_pos hv]

theorem Change.keepsNames {c : Change} (hc : c.inPlace = true) (h : c.apply g = .ok g') :
    KeepsNames g g' ∨ ∃ v name, c = .setName v name := by
  cases c with
  | addInst inst ty => cases hc
  | removeInst i => cases hc
  | setName v name => exact .inr ⟨v, name, rfl⟩
  | clearName v =>
    cases h
    exact .inl (clearName_keeps g v)
  | const w =>
    cases h
    exact .inl (SameNames.editing.shared g _).keeps
  | undef ty =>
    cases h
    exact .inl (SameNames.editing.shared g _).keeps
  | addReg ty =>
    cases h
    exact .inl (SameNames.editing.addValue g _).keeps
  | replaceUse old new =>
    obtain ⟨n, hd⟩ := snd_eq_ok.1 h
    exact .inl (SameNames.editing.replaceUse hd).keeps
  | replaceWithin old new i =>
    obtain ⟨n, hd⟩ := snd_eq_ok.1 h
    exact .inl (SameNames.editing.replaceWithin hd).keeps
  | setArg i n v => exact .inl (SameNames.editing.setArg h).keeps
  | replaceBlockUse old new =>
    obtain ⟨n, hd⟩ := snd_eq_ok.1 h
    exact .inl (SameNames.editing.replaceBlockUse hd).keeps
  | replaceBlockWithin old new i =>
    obtain ⟨n, hd⟩ := snd_eq_ok.1 h
    exact .inl (SameNames.editing.replaceBlockWithin hd).keeps
  | addIncoming i v b => exact .inl (SameNames.editing.addIncoming h).keeps
  | setIncoming i b v => exact .inl (SameNames.editing.setIncoming h).keeps
  | removeIncoming i b =>
    obtain ⟨n, hd⟩ := snd_eq_ok.1 h
    exact .inl (SameNames.editing.removeIncoming hd).keeps

theorem name?_ofSignature (sig : Signature) (v : ValueId) : (ofSignature sig).name? v = none := by
  have hnames : (ofSignature sig).names = ∅ :=
    foldl_induct (fun _ (g : DataFlow) => g.names = ∅) rfl fun _ _ _ _ _ h => h
  rw [name?, hnames]
  rfl

theorem ofSignature_counted (sig : Signature) : (ofSignature sig).Counted := by
  intro name
  have hcounts : (ofSignature sig).nameCounts = ∅ :=
    foldl_induct (fun _ (g : DataFlow) => g.nameCounts = ∅) rfl fun _ _ _ _ _ h => h
  refine ⟨∅, fun v => ?_, ?_⟩
  · rw [name?_ofSignature]
    simp
  · rw [nameCount, hcounts]
    rfl

theorem ofSignature_present (sig : Signature) : (ofSignature sig).Present := by
  intro v name hv
  rw [name?_ofSignature] at hv
  cases hv

end DataFlow

namespace Builder

variable {b b' : Builder}

open DataFlow (SameNames KeepsNames)

theorem insert_sameNames {inst : Inst} {ty : Ty} {i : InstId} (h : b.insert inst ty = .ok (i, b')) :
    SameNames b.flow b'.flow := by
  obtain ⟨⟨j, g⟩, hadd, h⟩ := bind_eq_ok.1 h
  obtain ⟨⟨pos, l⟩, -, h⟩ := bind_eq_ok.1 h
  cases h
  exact SameNames.editing.addInst hadd

theorem removeInst_keepsNames {i : InstId} (h : b.removeInst i = .ok b') :
    KeepsNames b.flow b'.flow := by
  obtain ⟨pos, -, h⟩ := bind_eq_ok.1 h
  obtain ⟨l, -, h⟩ := bind_eq_ok.1 h
  obtain ⟨g, hg, h⟩ := bind_eq_ok.1 h
  cases h
  exact DataFlow.removeInst_keeps hg

theorem keepsNames_dismantle : Dismantling fun b b' => KeepsNames b.flow b'.flow where
  refl b := (SameNames.refl b.flow).keeps
  trans h h' := h.trans h'
  undef b ty := (SameNames.editing.shared b.flow (.undef ty)).keeps
  replaceUse hg := (SameNames.editing.replaceUse hg).keeps
  removeIncoming hg := (SameNames.editing.removeIncoming hg).keeps
  remove hr := removeInst_keepsNames hr
  leave b := (SameNames.refl b.flow).keeps
  dropBlock _ _ hg _ _ := (SameNames.forgetBlock hg).keeps

theorem emit_keepsNames {name? : Option String} {inst : Inst} {ty : Ty} {i : InstId}
    (h : b.emit name? inst ty = .ok (i, b')) : KeepsNames b.flow b'.flow := by
  obtain ⟨⟨j, c⟩, hc, h⟩ := bind_eq_ok.1 h
  have hsame := insert_sameNames hc
  dsimp only at h
  split at h
  · rename_i name v hv _
    cases h
    obtain ⟨⟨j', g⟩, hadd, hc⟩ := bind_eq_ok.1 hc
    obtain ⟨⟨pos, l⟩, -, hc⟩ := bind_eq_ok.1 hc
    cases hc
    exact hsame.keeps.trans (DataFlow.setName_keeps (DataFlow.origin_of_addInst hadd hv) name)
  · cases h
    exact hsame.keeps

/-- Every operation keeps the names in order, except perhaps for a name that is given by hand. -/
theorem Action.keepsNames {a : Action} (ha : a.Offered b) (hb : a.apply b = .ok b') :
    KeepsNames b.flow b'.flow ∨ ∃ v name, a = .edit (.setName v name) := by
  have hsame : b'.flow = b.flow → KeepsNames b.flow b'.flow := by
    intro h
    rw [h]
    exact (SameNames.refl b.flow).keeps
  cases a with
  | block name? =>
    obtain ⟨c, hc⟩ := snd_eq_ok.1 hb
    obtain ⟨l, -, hc⟩ := bind_eq_ok.1 hc
    cases hc
    exact .inl (hsame rfl)
  | blockAfter name after =>
    obtain ⟨c, hc⟩ := snd_eq_ok.1 hb
    obtain ⟨l, -, hc⟩ := bind_eq_ok.1 hc
    cases hc
    exact .inl (hsame rfl)
  | nameBlock c name? =>
    obtain ⟨table, -, hb⟩ := bind_eq_ok.1 hb
    cases hb
    exact .inl (hsame rfl)
  | goTo pos =>
    cases hb
    exact .inl (hsame rfl)
  | atTerminator c =>
    obtain ⟨term?, -, hb⟩ := bind_eq_ok.1 hb
    split at hb <;> cases hb <;> exact .inl (hsame rfl)
  | atPhisEnd c =>
    obtain ⟨phis, -, hb⟩ := bind_eq_ok.1 hb
    split at hb <;> cases hb <;> exact .inl (hsame rfl)
  | build name? order =>
    obtain ⟨inst, ty, i, he⟩ := Order.emits ha hb
    exact .inl (emit_keepsNames he.emit)
  | insert inst ty =>
    obtain ⟨i, hi⟩ := snd_eq_ok.1 hb
    exact .inl (insert_sameNames hi).keeps
  | remove i => exact .inl (removeInst_keepsNames hb)
  | delete i => exact .inl (keepsNames_dismantle.deleteInst hb)
  | prune i =>
    obtain ⟨removed, hp⟩ := snd_eq_ok.1 hb
    exact .inl (keepsNames_dismantle.pruneWithin hp)
  | moveToEnd i c =>
    obtain ⟨pos, -, hb⟩ := bind_eq_ok.1 hb
    obtain ⟨l, -, hb⟩ := bind_eq_ok.1 hb
    obtain ⟨l', -, hb⟩ := bind_eq_ok.1 hb
    cases hb
    exact .inl (hsame rfl)
  | removeBlock c => exact .inl (keepsNames_dismantle.removeBlock hb)
  | declare callee sig =>
    cases hb
    exact .inl (SameNames.addImport b.flow callee sig).keeps
  | edit change =>
    obtain ⟨g, hg, hb⟩ := bind_eq_ok.1 hb
    cases hb
    rcases DataFlow.Change.keepsNames ha hg with hkeeps | ⟨v, name, rfl⟩
    · exact .inl hkeeps
    · exact .inr ⟨v, name, rfl⟩

/-- The value that is given a name by hand. -/
def Action.named? : Action → Option ValueId
  | .edit (.setName v _) => some v
  | _ => none

/-- A name is only given by hand to a value that is there. -/
def Action.NamesPresent (b : Builder) (a : Action) : Prop :=
  a.Offered b ∧ a.named?.all b.flow.hasValue = true

instance (b : Builder) (a : Action) : Decidable (Action.NamesPresent b a) :=
  inferInstanceAs (Decidable (_ ∧ _))

theorem History.offered (hh : History Action.NamesPresent b b') : History Action.Offered b b' := by
  refine Relation.ReflTransGen.mono (fun c d hp => ?_) b b' hh
  obtain ⟨a, ha, hb⟩ := hp
  exact ⟨a, ha.1, hb⟩

theorem History.counted (hh : History Action.Offered b b') (h : b.flow.Counted) :
    b'.flow.Counted := by
  induction hh with
  | refl => exact h
  | tail _ hlast ih =>
    obtain ⟨a, ha, hb⟩ := hlast
    rcases Action.keepsNames ha hb with hkeeps | ⟨v, name, rfl⟩
    · exact hkeeps.counted ih
    · cases hb
      exact ih.setName v name

theorem History.present (hh : History Action.NamesPresent b b') (h : b.flow.Present) :
    b'.flow.Present := by
  induction hh with
  | refl => exact h
  | tail _ hlast ih =>
    obtain ⟨a, ha, hb⟩ := hlast
    rcases Action.keepsNames ha.1 hb with hkeeps | ⟨v, name, rfl⟩
    · exact hkeeps.present ih
    · cases hb
      obtain ⟨o, ho⟩ := DataFlow.hasValue_iff.1 ha.2
      exact DataFlow.Present.setName ih ho name

end Builder

end MiddleEnd
