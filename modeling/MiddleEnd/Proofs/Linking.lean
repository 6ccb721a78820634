import Mathlib.Data.String.Basic
import MiddleEnd.Proofs.ImportTables
import MiddleEnd.Proofs.PassRevisions

/-!
# Linking

Linking looks at what the functions of a module import, not at what they call. Every call goes by an
import, so nothing that is called and missing escapes it. But an import stays when the calls it was
made for are gone, or if there never were any, and it is then reported as if it were called.
-/

namespace MiddleEnd

namespace Func

/-- An import goes by this name. -/
def Imports (f : Func) (callee : String) : Prop :=
  ∃ c target, f.flow.imports.get? c = some target ∧ target.name = callee

/-- A call that is placed in a block goes to a function of this name. -/
def Calls (f : Func) (callee : String) : Prop :=
  ∃ i inst c target, i ∈ f.allInsts ∧ f.flow.inst? i = some inst ∧ inst.callee? = some c ∧
    f.flow.imports.get? c = some target ∧ target.name = callee

theorem Calls.imports {f : Func} {callee : String} (h : f.Calls callee) : f.Imports callee := by
  obtain ⟨_, _, c, target, -, -, -, hc, hname⟩ := h
  exact ⟨c, target, hc, hname⟩

def calleeOf? (f : Func) (i : InstId) : Option String := do
  let inst ← f.flow.inst? i
  let target ← f.flow.imports.get? (← inst.callee?)
  return target.name

theorem calls_iff {f : Func} {callee : String} :
    f.Calls callee ↔ ∃ i ∈ f.allInsts, f.calleeOf? i = some callee := by
  unfold Calls calleeOf?
  simp only [Option.bind_eq_bind, Option.bind_eq_some_iff, Option.pure_def, Option.some.injEq]
  constructor
  · rintro ⟨i, inst, c, target, hi, hinst, hc, htarget, hname⟩
    exact ⟨i, hi, inst, hinst, c, hc, target, htarget, hname⟩
  · rintro ⟨i, hi, inst, hinst, c, hc, target, htarget, hname⟩
    exact ⟨i, inst, c, target, hi, hinst, hc, htarget, hname⟩

instance (f : Func) (callee : String) : Decidable (f.Calls callee) :=
  decidable_of_iff _ calls_iff.symm

end Func

namespace Module

/-- No two functions have the same name, and each has what linking relies on. -/
structure Linkable (m : Module) : Prop where
  apart : ∀ {id id' f f'}, m.funcs.get? id = some f → m.funcs.get? id' = some f' →
    f.name = f'.name → id = id'
  func : ∀ {id f}, m.funcs.get? id = some f → f.flow.Linkable

variable {m m' : Module} {id : FuncId} {f f' : Func} {name : String}

theorem lookup?_name (h : m.lookup? name = some id) :
    ∃ f, m.funcs.get? id = some f ∧ f.name = name := by
  obtain ⟨⟨id', f⟩, hfind, hid⟩ := Option.map_eq_some_iff.1 h
  cases hid
  have hname := List.find?_some hfind
  exact ⟨f, Table.mem_toList.1 (List.mem_of_find?_eq_some hfind), of_decide_eq_true hname⟩

theorem lookup?_eq_none : m.lookup? name = none ↔ ∀ {id f}, m.funcs.get? id = some f →
    f.name ≠ name := by
  unfold lookup?
  rw [Option.map_eq_none_iff, List.find?_eq_none]
  constructor
  · intro h id f hf he
    exact h (id, f) (Table.mem_toList.2 hf) (decide_eq_true he)
  · rintro h ⟨id, f⟩ hf he
    exact h (Table.mem_toList.1 hf) (of_decide_eq_true he)

theorem Linkable.lookup?_eq (h : m.Linkable) (hf : m.funcs.get? id = some f) :
    m.lookup? f.name = some id := by
  cases hid : m.lookup? f.name with
  | none => exact absurd rfl (lookup?_eq_none.1 hid hf)
  | some id' =>
    obtain ⟨f', hf', hname⟩ := lookup?_name hid
    rw [h.apart hf' hf hname]

theorem linkable_empty : ({} : Module).Linkable := ⟨nofun, nofun⟩

theorem Linkable.addFunc (h : m.Linkable) (hm : m.addFunc f = .ok (id, m')) (hf : f.flow.Linkable) :
    m'.Linkable := by
  unfold Module.addFunc at hm
  split at hm
  · cases hm
  · rename_i hnone
    have hget : ∀ k, m'.funcs.get? k = if Key.index k = m.funcs.bound then some f else
        m.funcs.get? k := by
      cases hm
      exact Table.get?_add m.funcs f
    have hfresh : ∀ {id g}, m.funcs.get? id = some g → g.name ≠ f.name :=
      lookup?_eq_none.1 (Option.not_isSome_iff_eq_none.1 hnone)
    constructor
    · intro id id' g g' hg hg' he
      rw [hget] at hg hg'
      split at hg <;> split at hg'
      · rename_i hk hk'
        exact Key.index_inj (hk.trans hk'.symm)
      · cases hg
        exact absurd he.symm (hfresh hg')
      · cases hg'
        exact absurd he (hfresh hg)
      · exact h.apart hg hg' he
    · intro id g hg
      rw [hget] at hg
      split at hg
      · cases hg
        exact hf
      · exact h.func hg

theorem Linkable.of_versions (h : m.Linkable) (hm : ∀ {id f'}, m'.funcs.get? id = some f' →
    ∃ f, m.funcs.get? id = some f ∧ f'.Linkable f.name) : m'.Linkable := by
  constructor
  · intro id id' f f' hf hf' he
    obtain ⟨g, hg, hlink⟩ := hm hf
    obtain ⟨g', hg', hlink'⟩ := hm hf'
    exact h.apart hg hg' (hlink.name.symm.trans (he.trans hlink'.name))
  · intro id f hf
    obtain ⟨_, -, hlink⟩ := hm hf
    exact hlink.flow

theorem Linkable.removeFunc (h : m.Linkable) (hm : m.removeFunc id = .ok (f, m')) :
    m'.Linkable := by
  obtain ⟨⟨g, funcs⟩, hremove, hm⟩ := bind_eq_ok.1 hm
  cases hm
  obtain ⟨-, -, hget⟩ := Table.remove_eq_ok hremove
  refine h.of_versions fun {id' f'} hf' => ?_
  rw [hget] at hf'
  split at hf'
  · cases hf'
  · exact ⟨f', hf', rfl, h.func hf'⟩

theorem Linkable.setFunc (h : m.Linkable) (hf : m.func id = .ok f) (hlink : f'.Linkable f.name)
    (hm : m.setFunc id f' = .ok m') : m'.Linkable := by
  have hf := ofOption_eq_ok.1 hf
  obtain ⟨funcs, hfuncs, hget, -⟩ := Table.set_ok f' hf
  rw [Module.setFunc, hfuncs] at hm
  cases hm
  refine h.of_versions fun {id' g} hg => ?_
  have hg := (hget id').symm.trans hg
  by_cases hid : id' = id
  · subst hid
    cases (if_pos rfl).symm.trans hg
    exact ⟨f, hf, hlink⟩
  · have hg := (if_neg hid).symm.trans hg
    exact ⟨g, hg, rfl, h.func hg⟩

theorem Linkable.revise (h : m.Linkable) (hm : m.Revised m') : m'.Linkable := by
  refine h.of_versions fun {id f'} hf' => ?_
  obtain ⟨f, hf, hr⟩ := hm.back hf'
  exact ⟨f, hf, hr.linkable ⟨rfl, h.func hf⟩⟩

/-- The modules that come about by building functions and running passes on them. -/
inductive Built : Module → Prop where
  | empty : Built {}
  | declareGlobal {m : Module} (name : String) (ty : Ty) :
      Built m → Built (m.declareGlobal name ty).2
  | new {m m' : Module} {id : FuncId} (name : String) (sig : Signature) : Built m →
      m.addFunc (.new name sig) = .ok (id, m') → Built m'
  /-- A copy, under any name, of a function of this module or another one. -/
  | copy {m m' n : Module} {id id' : FuncId} {f : Func} (name : String) :
      Built m → Built n → n.func id = .ok f →
      m.addFunc { f with name } = .ok (id', m') → Built m'
  | remove {m m' : Module} {id : FuncId} {f : Func} :
      Built m → m.removeFunc id = .ok (f, m') → Built m'
  | edit {m m' : Module} {id : FuncId} {f : Func} {b : Builder} : Built m → m.func id = .ok f →
      Builder.History Builder.Action.Declared { func := f } b →
      m.setFunc id b.func = .ok m' → Built m'
  | runOnFunc {m m' : Module} {id : FuncId} {f : Func} {p : Pass} {modified : Bool} {b : Builder} :
      Built m →
      p ∈ Pass.all → m.func id = .ok f → (p.onFunc { func := f }).Gives (modified, b) →
      m.setFunc id b.func = .ok m' → Built m'
  | run {m m' : Module} {p : Pass} {modified : Bool} (settings : Settings) :
      Built m → p ∈ Pass.all →
      (p.onModule settings m).Gives (modified, m') → Built m'

theorem Built.linkable (h : m.Built) : m.Linkable := by
  induction h with
  | empty => exact linkable_empty
  | declareGlobal name ty _ ih =>
    unfold Module.declareGlobal
    split
    · exact ih
    · exact ⟨ih.apart, ih.func⟩
  | new name sig _ hm ih => exact ih.addFunc hm (Func.new_linkable name sig).flow
  | copy name _ _ hf hm ih ih' =>
    have hlink := ih'.func (ofOption_eq_ok.1 hf)
    exact ih.addFunc hm hlink
  | remove _ hm ih => exact ih.removeFunc hm
  | edit _ hf hb hm ih =>
    exact ih.setFunc hf (Builder.History.linkable hb ⟨rfl, ih.func (ofOption_eq_ok.1 hf)⟩) hm
  | runOnFunc _ hp hf hb hm ih =>
    have hr := hb.ensured ((Pass.all_revise _ hp).onFunc _)
    exact ih.setFunc hf (Builder.Revised.linkable hr ⟨rfl, ih.func (ofOption_eq_ok.1 hf)⟩) hm
  | run settings _ hp hm ih =>
    exact ih.revise (hm.ensured ((Pass.all_revise _ hp).onModule settings _))

/-- What linking reports if functions refer to others in this way: nothing if all of them are there,
else the pairs of a function and one it refers to that is missing, function by function in the order
of the module and sorted. -/
structure Reports (m : Module) (refers : Func → String → Prop) (report : Option Unresolved) :
    Prop where
  resolved : report = none ↔
    ∀ id f, m.func id = .ok f → ∀ callee, refers f callee → ∃ target, m.lookup? callee = some target
  lists : ∀ u, report = some u → ∀ caller callee, (caller, callee) ∈ u.calls ↔
    ∃ id f, m.lookup? caller = some id ∧ m.func id = .ok f ∧ refers f callee ∧
    m.lookup? callee = none
  sorted : ∀ u, report = some u → ∃ callees : Func → List String,
    u.calls = m.functions.flatMap (fun (_, f) => (callees f).map fun callee => (f.name, callee)) ∧
      ∀ id f, m.func id = .ok f → (callees f).Pairwise (· < ·)

theorem unresolvedOf_eq (hf : f.flow.Linkable) : ∃ callees : List String,
    m.unresolvedOf f = callees.map (fun callee => (f.name, callee)) ∧ callees.Pairwise (· < ·) ∧
      ∀ callee, callee ∈ callees ↔ f.Imports callee ∧ m.lookup? callee = none := by
  have hnames : (f.flow.imports.values.map (·.name)).Nodup := by
    unfold Table.values
    rw [List.map_map]
    refine List.Nodup.map_on ?_ (f.flow.imports.keys_nodup.of_map _)
    rintro ⟨c, target⟩ hc ⟨c', target'⟩ hc' he
    have hc := Table.mem_toList.1 hc
    have hc' := Table.mem_toList.1 hc'
    obtain rfl := hf.apart hc hc' he
    rw [Option.some.inj (hc.symm.trans hc')]
  have himports : ∀ callee, callee ∈ f.flow.imports.values.map (·.name) ↔ f.Imports callee := by
    intro callee
    unfold Table.values
    rw [List.map_map, List.mem_map]
    constructor
    · rintro ⟨⟨c, target⟩, hc, he⟩
      exact ⟨c, target, Table.mem_toList.1 hc, he⟩
    · rintro ⟨c, target, hc, he⟩
      exact ⟨(c, target), Table.mem_toList.2 hc, he⟩
  refine ⟨_, rfl, ?_, fun callee => ?_⟩
  · have hle : ∀ a b : String, (decide (a ≤ b) || decide (b ≤ a)) = true := by
      intro a b
      simpa using le_total a b
    have htrans : ∀ a b c : String, decide (a ≤ b) = true → decide (b ≤ c) = true →
        decide (a ≤ c) = true := by
      intro a b c hab hbc
      simp only [decide_eq_true_eq] at *
      exact le_trans hab hbc
    have hsorted := List.pairwise_mergeSort htrans hle
      ((f.flow.imports.values.map (·.name)).filter (m.lookup? · |>.isNone))
    have hnodup := (List.mergeSort_perm _ fun a b : String => decide (a ≤ b)).nodup_iff.2
      (hnames.filter (m.lookup? · |>.isNone))
    refine (hsorted.and hnodup).imp fun {a b} hab => ?_
    exact lt_of_le_of_ne (of_decide_eq_true hab.1) hab.2
  · rw [List.mem_mergeSort, List.mem_filter, himports, Option.isNone_iff_eq_none]

def unresolved (m : Module) : List (String × String) :=
  m.functions.flatMap fun (_, f) => m.unresolvedOf f

theorem Linkable.mem_unresolved (h : m.Linkable) {caller callee : String} :
    (caller, callee) ∈ m.unresolved ↔
    ∃ id f, m.lookup? caller = some id ∧ m.func id = .ok f ∧ f.Imports callee ∧
      m.lookup? callee = none := by
  unfold unresolved
  rw [List.mem_flatMap]
  constructor
  · rintro ⟨⟨id, f⟩, hf, hmem⟩
    have hf := Table.mem_toList.1 hf
    obtain ⟨callees, hcallees, -, hall⟩ := unresolvedOf_eq (m := m) (h.func hf)
    dsimp only at hmem
    rw [hcallees] at hmem
    obtain ⟨_, hcallee, he⟩ := List.mem_map.1 hmem
    cases he
    obtain ⟨himports, hnone⟩ := (hall callee).1 hcallee
    exact ⟨id, f, h.lookup?_eq hf, ofOption_eq_ok.2 hf, himports, hnone⟩
  · rintro ⟨id, f, hid, hf, himports, hnone⟩
    obtain ⟨f', hf', rfl⟩ := lookup?_name hid
    have hf := ofOption_eq_ok.1 hf
    cases hf'.symm.trans hf
    obtain ⟨callees, hcallees, -, hall⟩ := unresolvedOf_eq (m := m) (h.func hf)
    refine ⟨(id, f), Table.mem_toList.2 hf, ?_⟩
    dsimp only
    rw [hcallees]
    exact List.mem_map.2 ⟨callee, (hall callee).2 ⟨himports, hnone⟩, rfl⟩

theorem Linkable.reports (h : m.Linkable) :
    m.Reports Func.Imports (if m.unresolved.isEmpty then none else some ⟨m.unresolved⟩) := by
  refine ⟨?_, fun u hu caller callee => ?_, fun u hu => ?_⟩
  · have hempty : (if m.unresolved.isEmpty then none else some (⟨m.unresolved⟩ : Unresolved)) =
        none ↔
        m.unresolved = [] := by simp
    rw [hempty, List.eq_nil_iff_forall_not_mem]
    constructor
    · intro hnone id f hf callee himports
      refine Option.ne_none_iff_exists'.1 fun hmissing => hnone (f.name, callee) ?_
      exact h.mem_unresolved.2 ⟨id, f, h.lookup?_eq (ofOption_eq_ok.1 hf), hf, himports, hmissing⟩
    · rintro hall ⟨caller, callee⟩ hmem
      obtain ⟨id, f, -, hf, himports, hmissing⟩ := h.mem_unresolved.1 hmem
      obtain ⟨target, htarget⟩ := hall id f hf callee himports
      rw [hmissing] at htarget
      cases htarget
  · split at hu
    · cases hu
    · cases hu
      exact h.mem_unresolved
  · split at hu
    · cases hu
    cases hu
    refine ⟨fun f => (m.unresolvedOf f).map (·.2), List.flatMap_congr fun p hp => ?_,
      fun id f hf => ?_⟩
    · obtain ⟨callees, hcallees, -, -⟩ := unresolvedOf_eq (m := m) (h.func (Table.mem_toList.1 hp))
      dsimp only
      rw [hcallees, List.map_map, List.map_map]
      rfl
    · obtain ⟨callees, hcallees, hsorted, -⟩ :=
        unresolvedOf_eq (m := m) (h.func (ofOption_eq_ok.1 hf))
      dsimp only
      rw [hcallees, List.map_map]
      simpa using hsorted

theorem link_exec (m : Module) (log : Log) : ∃ log', m.link.exec log =
    (.ok (if m.unresolved.isEmpty then none else some ⟨m.unresolved⟩), log') := by
  have hruns : m.link.Succeeds True (· = if m.unresolved.isEmpty then none else
      some ⟨m.unresolved⟩) := by
    unfold link
    refine (Run.succeeds_forIn fun _ => ?_).bind fun _ _ => Run.succeeds_pure rfl
    exact Run.succeeds_log fun _ => ⟨_, rfl⟩
  obtain ⟨_, log', he, -, rfl⟩ := hruns log (.inr trivial)
  exact ⟨log', he⟩

theorem Reports.calls_iff {report : Option Unresolved} (h : m.Linkable)
    (hr : m.Reports Func.Imports report) :
    m.Reports Func.Calls report ↔ ∀ id f, m.func id = .ok f → ∀ callee, f.Imports callee →
      m.lookup? callee = none → f.Calls callee := by
  constructor
  · intro hc id f hf callee himports hmissing
    cases report with
    | none =>
      obtain ⟨target, htarget⟩ := hr.resolved.1 rfl id f hf callee himports
      rw [hmissing] at htarget
      cases htarget
    | some u =>
      have hid := h.lookup?_eq (ofOption_eq_ok.1 hf)
      have hlisted := (hr.lists u rfl f.name callee).2 ⟨id, f, hid, hf, himports, hmissing⟩
      obtain ⟨id', f', hid', hf', hcalls, -⟩ := (hc.lists u rfl f.name callee).1 hlisted
      cases hid.symm.trans hid'
      cases hf.symm.trans hf'
      exact hcalls
  · intro hall
    refine ⟨hr.resolved.trans ⟨fun hnone id f hf callee hcalls =>
      hnone id f hf callee hcalls.imports, ?_⟩,
      fun u hu caller callee => (hr.lists u hu caller callee).trans ?_, hr.sorted⟩
    · intro hcalled id f hf callee himports
      by_contra hmissing
      have hmissing := Option.eq_none_iff_forall_ne_some.2 fun target ht => hmissing ⟨target, ht⟩
      obtain ⟨target, htarget⟩ := hcalled id f hf callee (hall id f hf callee himports hmissing)
      rw [hmissing] at htarget
      cases htarget
    · constructor
      · rintro ⟨id, f, hid, hf, himports, hmissing⟩
        exact ⟨id, f, hid, hf, hall id f hf callee himports hmissing, hmissing⟩
      · rintro ⟨id, f, hid, hf, hcalls, hmissing⟩
        exact ⟨id, f, hid, hf, hcalls.imports, hmissing⟩

/-- Linking goes through, whoever listens, and it reports what is imported and missing. That is what
is called and missing if and only if every missing function that is imported is called. -/
theorem link_reports_calls (h : m.Built) :
    ∃ report, (∀ log, ∃ log', m.link.exec log = (.ok report, log')) ∧
      m.Reports Func.Imports report ∧
    (m.Reports Func.Calls report ↔ ∀ id f, m.func id = .ok f → ∀ callee, f.Imports callee →
      m.lookup? callee = none → f.Calls callee) :=
  ⟨_, m.link_exec, h.linkable.reports, h.linkable.reports.calls_iff h.linkable⟩

def ofActions? (name : String) (sig : Signature) (actions : List Builder.Action) :
    Option Module := do
  let (id, m) ← (({} : Module).addFunc (.new name sig)).toOption
  let f ← (m.func id).toOption
  let b ← Builder.Action.run Builder.Action.Declared { func := f } actions
  (m.setFunc id b.func).toOption

theorem built_of_actions {name : String} {sig : Signature} {actions : List Builder.Action}
    (h : ofActions? name sig actions = some m) : m.Built := by
  unfold ofActions? at h
  simp only [Option.bind_eq_bind, Option.bind_eq_some_iff] at h
  obtain ⟨⟨id, m₁⟩, hm₁, f, hf, b, hb, h⟩ := h
  exact .edit (.new name sig .empty (ok_of_toOption hm₁)) (ok_of_toOption hf)
    (Builder.Action.run_history hb) (ok_of_toOption h)

theorem calls_of_all (h : (m.functions.all fun e => e.2.flow.imports.values.all fun target =>
    (m.lookup? target.name).isSome || decide (e.2.Calls target.name)) = true)
      {id : FuncId} {f : Func}
    (hf : m.func id = .ok f) {callee : String} (himports : f.Imports callee)
    (hmissing : m.lookup? callee = none) :
    f.Calls callee := by
  obtain ⟨c, target, hc, rfl⟩ := himports
  have hall := List.all_eq_true.1 h _ (Table.mem_toList.2 (ofOption_eq_ok.1 hf))
  have htarget := List.all_eq_true.1 hall target (List.mem_map.2 ⟨_, Table.mem_toList.2 hc, rfl⟩)
  rw [hmissing] at htarget
  exact of_decide_eq_true htarget

def missing (m : Module) : List (String × List String) :=
  m.functions.map fun (_, f) =>
    (f.name, (f.flow.imports.values.map (·.name)).filter (m.lookup? · |>.isNone))

theorem unresolved_eq (m : Module) : m.unresolved = m.missing.flatMap fun (caller, callees) =>
    (callees.mergeSort fun a b => decide (a ≤ b)).map fun callee => (caller, callee) := by
  unfold unresolved missing
  rw [List.flatMap_map]
  rfl

/-- Calls of two functions that are missing, in an order of their own, and of the function itself.
One more call is in a block that control does not come to. -/
def calling : List Builder.Action :=
  [.block (some "entry"), .block (some "stray"), .declare "second" ⟨[], none⟩,
    .declare "first" ⟨[], none⟩, .declare "second" ⟨[.int 1], none⟩, .declare "main" ⟨[], none⟩,
    .goTo (.append ⟨0⟩), .build none (.call ⟨0⟩ []), .build none (.call ⟨2⟩ []),
    .build none (.call ⟨1⟩ []), .build none (.call ⟨0⟩ []), .build none .ret, .goTo (.append ⟨1⟩),
    .build none (.call ⟨1⟩ []), .build none .ret]

theorem calling_reported : ∃ m : Module, m.Built ∧
    (∀ log, ∃ log', m.link.exec log =
      (.ok (some ⟨[("main", "first"), ("main", "second")]⟩), log')) ∧
    m.Reports Func.Calls (some ⟨[("main", "first"), ("main", "second")]⟩) := by
  have hruns : ((ofActions? "main" ⟨[], none⟩ calling).any fun m =>
      Pass.all.any fun p => p.name = "cfs" && (p.onModule {} m).outcome.toOption.any fun r =>
        r.1 && decide (r.2.missing = [("main", ["second", "first"])]) &&
          r.2.functions.all fun e => e.2.flow.imports.values.all fun target =>
            (r.2.lookup? target.name).isSome || decide (e.2.Calls target.name)) = true := by
              decide +kernel
  obtain ⟨m₁, hm₁, hruns⟩ := (Option.any_eq_true _ _).1 hruns
  obtain ⟨p, hp, hruns⟩ := List.any_eq_true.1 hruns
  obtain ⟨⟨changed, m⟩, hrun, h⟩ := exists_of_any (Bool.and_eq_true_iff.1 hruns).2
  simp only [Bool.and_eq_true, decide_eq_true_eq] at h
  obtain ⟨⟨-, hmissing⟩, hall⟩ := h
  have hbuilt : m.Built := .run {} (built_of_actions hm₁) hp ⟨{}, _, Prod.ext hrun rfl⟩
  have hunresolved : m.unresolved = [("main", "first"), ("main", "second")] := by
    rw [unresolved_eq, hmissing]
    simp [List.mergeSort]
  obtain ⟨report, hlink, himports, hcalls⟩ := link_reports_calls hbuilt
  have hreports := hcalls.2 fun id f hf callee => calls_of_all hall hf
  have hsame : report = some ⟨[("main", "first"), ("main", "second")]⟩ := by
    obtain ⟨log', hexec⟩ := hlink {}
    obtain ⟨log'', hexec'⟩ := m.link_exec {}
    rw [hunresolved] at hexec'
    cases hexec.symm.trans hexec'
    rfl
  rw [hsame] at hlink hreports
  exact ⟨m, hbuilt, hlink, hreports⟩

def recanting : List Builder.Action :=
  [.block (some "entry"), .declare "missing" ⟨[], none⟩, .goTo (.append ⟨0⟩),
    .build none (.call ⟨0⟩ []), .remove ⟨0⟩, .build none .ret]

/-- Nothing is called any more, but a call is reported. -/
theorem recanting_reported :
    ∃ m : Module, m.Built ∧ m.link.outcome = .ok (some ⟨[("main", "missing")]⟩) ∧
      (∀ id f callee, m.func id = .ok f → ¬ f.Calls callee) ∧
    ∀ report, m.link.outcome = .ok report → ¬ m.Reports Func.Calls report := by
  have hbuilds : ((ofActions? "main" ⟨[], none⟩ recanting).any fun m =>
      decide (m.missing = [("main", ["missing"])]) &&
        m.functions.all fun e => e.2.allInsts.all fun i => e.2.calleeOf? i = none) = true := by
        decide +kernel
  obtain ⟨m, hm, h⟩ := (Option.any_eq_true _ _).1 hbuilds
  simp only [Bool.and_eq_true, decide_eq_true_eq] at h
  obtain ⟨hmissing, hall⟩ := h
  have hcalls : ∀ id f callee, m.func id = .ok f → ¬ f.Calls callee := by
    intro id f callee hf hcalls
    obtain ⟨i, hi, hcallee⟩ := Func.calls_iff.1 hcalls
    have hall := List.all_eq_true.1 hall _ (Table.mem_toList.2 (ofOption_eq_ok.1 hf))
    have hnone := of_decide_eq_true (List.all_eq_true.1 hall i hi)
    rw [hnone] at hcallee
    cases hcallee
  have hunresolved : m.unresolved = [("main", "missing")] := by
    rw [unresolved_eq, hmissing]
    simp
  have hlink : m.link.outcome = .ok (some ⟨[("main", "missing")]⟩) := by
    obtain ⟨log', hexec⟩ := m.link_exec {}
    rw [hunresolved] at hexec
    exact congrArg (·.1) hexec
  refine ⟨m, built_of_actions hm, hlink, hcalls, fun report hreport hr => ?_⟩
  cases hlink.symm.trans hreport
  obtain ⟨id, f, -, hf, hcalled, -⟩ :=
    (hr.lists _ rfl "main" "missing").1 (List.mem_singleton.2 rfl)
  exact hcalls id f "missing" hf hcalled

end Module

end MiddleEnd
