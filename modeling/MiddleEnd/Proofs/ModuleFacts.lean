import MiddleEnd.Proofs.ConstantFacts

/-!
# Facts about the functions of a module

Calls to functions of the module are evaluated by searches of their own, one inside the other. No
function is searched twice at a time, so the nesting comes to an end. The facts of the inner search
cover all runs that the call can lead to, for arguments that are defined, and so does the value that
is known for the result of the call.
-/

namespace MiddleEnd

/-- The function can be searched as part of the module: it verifies, integers have bits, phis of
reachable blocks yield values, and parameters, imports and calls have the types that the signatures
say. -/
structure Func.SolvableIn (f : Func) (m : Module) : Prop where
  coherent : f.Coherent
  verified : f.errors = .ok []
  wide : ∀ v, f.flow.ty v ≠ .ok (.int 0)
  phis : ∀ c phis, f.Reachable c → f.phis c = .ok phis → ∀ i ∈ phis, ∃ r, f.flow.result? i = some r
  params : f.params.map f.tyOf = f.sig.params
  imports : ∀ {target imp id g}, f.flow.imports.get? target = some imp →
    m.lookup? imp.name = some id →
    m.funcs.get? id = some g → imp.sig.agrees g.sig = true
  calls : ∀ {i op target vs r imp}, f.flow.inst? i = some (.call op target vs) →
    f.flow.result? i = some r →
    f.flow.imports.get? target = some imp → f.flow.ty r = .ok imp.sig.returns

/-- All functions of the module can be searched. -/
def Module.Solvable (m : Module) : Prop := ∀ {id g}, m.funcs.get? id = some g → g.SolvableIn m

/-- What a search in the module asks of a function: it is worked through, and parameters, imports
and calls have the types that the signatures say. -/
structure Func.SearchableIn (f : Func) (m : Module) : Prop where
  workable : ∃ entry, Propagation.Workable f entry
  params : f.params.map f.tyOf = f.sig.params
  imports : ∀ {target imp id g}, f.flow.imports.get? target = some imp →
    m.lookup? imp.name = some id →
    m.funcs.get? id = some g → imp.sig.agrees g.sig = true
  calls : ∀ {i op target vs r imp}, f.flow.inst? i = some (.call op target vs) →
    f.flow.result? i = some r →
    f.flow.imports.get? target = some imp → f.flow.ty r = .ok imp.sig.returns

theorem Func.SolvableIn.searchable {f : Func} {m : Module} (h : f.SolvableIn m) :
    f.SearchableIn m :=
  ⟨Propagation.workable_of_verified h.coherent h.verified h.wide h.phis, h.params,
    h.imports, h.calls⟩

def Module.Searchable (m : Module) : Prop := ∀ {id g}, m.funcs.get? id = some g → g.SearchableIn m

namespace Propagation

open Facts

variable {m : Module} {f : Func} {entry : BlockId} {order : UserOrder}

theorem lookup?_eq_some {name : String} {id : FuncId} (h : m.lookup? name = some id) :
    ∃ g, m.funcs.get? id = some g := by
  obtain ⟨⟨id', g⟩, hfind, hid⟩ := Option.map_eq_some_iff.1 h
  cases hid
  exact ⟨g, Table.mem_toList.1 (List.mem_of_find?_eq_some hfind)⟩

theorem callTarget?_ok (maxDepth : Nat) (names : List String) {target : ImportId}
    (vs : List ValueId) {imp : Import} (himp : f.flow.imports.get? target = some imp) :
    callTarget? m maxDepth names f (.call .call target vs) = .ok none ∨
      ∃ id g, callTarget? m maxDepth names f (.call .call target vs) = .ok (some g) ∧
        m.lookup? imp.name = some id ∧ m.funcs.get? id = some g ∧ f.callee?
        (some m) target = some g ∧ g.name ∉ names := by
  have hresolve : m.resolve? f target = .ok (m.lookup? imp.name) := by
    unfold Module.resolve? Table.get
    rw [himp]
    rfl
  unfold callTarget?
  simp only [Inst.callee?, hresolve, ok_bind]
  cases hid : m.lookup? imp.name with
  | none => exact .inl rfl
  | some id =>
    obtain ⟨g, hg⟩ := lookup?_eq_some hid
    have hfunc : m.func id = .ok g := ofOption_eq_ok.2 hg
    simp only [hfunc, ok_bind]
    split
    · exact .inl rfl
    · rename_i hguard
      refine .inr ⟨id, g, rfl, rfl, hg, ?_, fun hmem => hguard (.inr (.inl hmem))⟩
      show (m.resolve? f target).toOption.join.bind m.funcs.get? = some g
      rw [hresolve, hid]
      exact hg

section Activate

variable {g : Func} {ks : List LatticeValue}

theorem get?_params (hn : g.params.Nodup) (hlen : g.params.length = ks.length) {n : Nat}
    {v : ValueId} {k : LatticeValue} (hv : g.params[n]? = some v) (hk : ks[n]? = some k) :
    ((g.params.zip ks).foldl (fun d (v, x) => d.insert v x) (∅ : Dict ValueId LatticeValue)).get?
      v = some k := by
  refine get?_foldl_insert_mem (p := (v, k)) ?_ (List.mem_of_getElem? (i := n) ?_)
  · rw [List.map_fst_zip (Nat.le_of_eq hlen)]
    exact hn
  · rw [List.getElem?_zip_eq_some]
    exact ⟨hv, hk⟩

theorem typed_args
    (hty : ∀ {n : Nat} {v w}, g.params[n]? = some v → ks[n]? = some (.const w) → g.tyOf v = w.ty) :
    Facts.Typed { values := (g.params.zip ks).foldl (fun d (v, x) => d.insert v x) ∅ } g := by
  refine typed_of_values fun {v w} hget => ?_
  rcases get?_foldl_insert hget with hmem | hnil
  · obtain ⟨n, hn⟩ := List.mem_iff_getElem?.1 hmem
    rw [List.getElem?_zip_eq_some] at hn
    exact hty hn.1 hn.2
  · cases hnil

theorem tracks_activate (hg : Workable g entry) {spec : CallSpec} {facts : Facts}
    (hc : Closed g entry spec facts)
    (hknown : ∀ v, (Facts.known
      { values := (g.params.zip ks).foldl (fun d (v, x) => d.insert v x) ∅ } g v).Le
      (facts.known g v)) (hparams : g.params.length = ks.length) {data : List Datum}
        (hlen : data.length = ks.length)
    (hdata : ∀ {n : Nat} {k a}, ks[n]? = some k → data[n]? = some a → k.Admits a) {s t : Frame}
    (ht : Frame.activate s g data = .ok t) : facts.Tracks g t := by
  obtain ⟨u, hu, ht⟩ := bind_eq_ok.1 ht
  cases ht
  refine tracks_start hg hc hu (fun {n v d} hv hd => ?_) _ _ _
  obtain ⟨ty, p, ho⟩ := hg.coherent.flow.param_origin (List.mem_of_getElem? hv)
  obtain ⟨k, hk⟩ : ∃ k, ks[n]? = some k := by
    have hn : n < data.length := (List.getElem?_eq_some_iff.1 hd).1
    exact ⟨_, List.getElem?_eq_getElem (hlen ▸ hn)⟩
  have hstart :
      Facts.known { values := (g.params.zip ks).foldl (fun d (v, x) => d.insert v x) ∅ } g v =
        k := by
    unfold Facts.known
    rw [ho]
    simp only [get?_params hg.coherent.flow.params_nodup hparams hv hk]
    rfl
  exact (hdata hk hd).mono (hstart ▸ hknown v)

end Activate

theorem mem_names {id : FuncId} (hf : m.funcs.get? id = some f) :
    f.name ∈ m.funcs.values.map (·.name) :=
  List.mem_map.2 ⟨f, List.mem_map.2 ⟨(id, f), Table.mem_toList.2 hf, rfl⟩, rfl⟩

theorem names_length_le {names : List String} (hn : names.Nodup)
    (h : ∀ n ∈ names, n ∈ m.funcs.values.map (·.name)) :
    names.length ≤ m.funcs.size := by
  have hle := List.Nodup.length_le_of_subset hn h
  rwa [List.length_map, Table.values, List.length_map] at hle

theorem nodup_names_append {names : List String} {name : String} (hn : names.Nodup)
    (hnew : name ∉ names) :
    (names ++ [name]).Nodup := by
  refine List.nodup_append.2 ⟨hn, by simp, fun a ha b hb hab => hnew ?_⟩
  rw [← List.mem_singleton.1 hb, ← hab]
  exact ha

theorem mem_names_append {names : List String}
    (hsub : ∀ n ∈ names, n ∈ m.funcs.values.map (·.name)) {id : FuncId}
    (hf : m.funcs.get? id = some f) : ∀ n ∈ names ++ [f.name], n ∈ m.funcs.values.map (·.name) := by
  intro n hn
  rcases List.mem_append.1 hn with hn | hn
  · exact hsub n hn
  · rw [List.mem_singleton.1 hn]
    exact mem_names hf

/-- Searches that nest come to an end, and what they find about calls covers the runs that the calls
lead to. -/
theorem solveNested_spec (hm : m.Searchable) (maxDepth : Nat) :
    ∀ (depth : Nat) {names : List String} {id : FuncId} {f : Func}
      {values : Dict ValueId LatticeValue}, m.funcs.get? id = some f → names.Nodup →
      (∀ n ∈ names, n ∈ m.funcs.values.map (·.name)) →
      m.funcs.size + 1 ≤ depth + names.length → Facts.Typed { values } f →
      (solveNested order (some m) maxDepth depth names f values).Yields fun facts =>
        ∃ entry, Workable f entry ∧ Closed f entry (Promises (some m) f) facts ∧
        ∀ v, (Facts.known { values } f v).Le (facts.known f v) := by
  intro depth
  induction depth with
  | zero =>
    intro names id f values _ hn hsub hlen _
    have := names_length_le hn hsub
    omega
  | succ depth ih =>
    intro names id f values hid hn hsub hlen htyped
    have hs := hm hid
    obtain ⟨entry, hf⟩ := hs.workable
    refine (solve_spec order hf ?_ htyped).mono fun facts h => ⟨entry, hf, h⟩
    intro facts i inst r htyped hinst hop hr
    obtain ⟨hform, hrule⟩ := hf.types hinst
    obtain ⟨target, vs, rfl⟩ := Verify.call_of_form hform hop
    obtain ⟨imp, himp, htys⟩ := hrule
    have hvarying : (return .varying : Run LatticeValue).Yields fun x =>
        Promises (some m) f i ((Inst.call .call target vs).args.map (facts.known f)) x ∧
          ∀ w, x = .const w → f.tyOf r = w.ty :=
      Run.yields_pure ⟨promises_varying _ _ _ _, fun _ h => (nomatch h)⟩
    rcases callTarget?_ok (m := m) maxDepth names vs himp with hnone | ⟨gid, g, hsome, hlookup, hg,
      hcallee, hnew⟩
    · refine Run.Yields.bind (Run.yields_lift ⟨none, hnone, rfl⟩) ?_
      rintro _ rfl
      exact hvarying
    · refine Run.Yields.bind (Run.yields_lift ⟨some g, hsome, rfl⟩) ?_
      rintro _ rfl
      refine Run.Yields.bind (Run.yields_lift ⟨_, Facts.values_ok fun v hv =>
        hf.coherent.flow.operand hinst hv, rfl⟩) ?_
      rintro _ rfl
      have hsig : imp.sig.returns = g.sig.returns ∧ imp.sig.params = g.sig.params := by
        have hagree := hs.imports himp hlookup hg
        unfold Signature.agrees at hagree
        simpa using hagree
      have htypes : vs.map f.tyOf = g.params.map g.tyOf := by rw [htys, hsig.2, (hm hg).params]
      have hparams : g.params.length = (vs.map (facts.known f)).length := by
        have := congrArg List.length htypes
        simpa using this.symm
      -- The instruction is this one call, to the function that is searched.
      have hself : ∀ {op target' vs' g'}, f.flow.inst? i = some (.call op target' vs') →
          f.callee? (some m) target' = some g' → g' = g := by
        intro op target' vs' g' hinst' hcallee'
        rw [hinst] at hinst'
        cases hinst'
        rw [hcallee] at hcallee'
        exact (Option.some.inj hcallee').symm
      have hhome : ∀ {op target' vs'}, f.flow.inst? i = some (.call op target' vs') →
          f.callee? (some m) target' ≠ none := by
        intro op target' vs' hinst' hnone
        rw [hinst] at hinst'
        cases hinst'
        rw [hcallee] at hnone
        cases hnone
      split
      · rename_i hunknown
        refine Run.yields_pure ⟨⟨fun hinst' hnone => absurd hnone (hhome hinst'), ?_⟩,
          fun _ h => (nomatch h)⟩
        intro op target' vs' g' data s t last d _ _ hlen hdata hdef _ _ _
        obtain ⟨n, hn⟩ := List.mem_iff_getElem?.1 hunknown
        have hlt : n < data.length := by
          rw [hlen]
          exact (List.getElem?_eq_some_iff.1 hn).1
        have hundef : data[n] = .undefined := hdata hn (List.getElem?_eq_getElem hlt)
        exact absurd (hundef ▸ List.getElem_mem hlt) hdef
      · refine Run.Yields.bind (Run.yields_log (P := fun _ => True) trivial) fun _ _ => ?_
        have htyped' : Facts.Typed
            { values := (g.params.zip (vs.map (facts.known f))).foldl (fun d (v, x) =>
            d.insert v x) ∅ } g := by
          refine typed_args fun {n v w} hv hk => ?_
          rw [List.getElem?_map] at hk
          obtain ⟨u, hu, hk⟩ := Option.map_eq_some_iff.1 hk
          have hn := congrArg (·[n]?) htypes
          simp only [List.getElem?_map, hu, hv, Option.map_some, Option.some.injEq] at hn
          rw [← hn]
          exact htyped hk
        refine Run.Yields.bind (ih hg (nodup_names_append hn hnew) (mem_names_append hsub hg)
          (by rw [List.length_append]; simp; omega) htyped') ?_
        rintro facts' ⟨entry', hg', hclosed, hknown⟩
        refine Run.yields_pure ⟨⟨fun hinst' hnone => absurd hnone (hhome hinst'), ?_⟩,
          fun w hw => ?_⟩
        · intro op target' vs' g' data s t last d hinst' hcallee' hlen hdata _ hact hrun hdone
          obtain rfl := hself hinst' hcallee'
          exact (hclosed.tracks hg' hrun (tracks_activate hg' hclosed hknown hparams hlen hdata
            hact)).returns hclosed hdone
        · obtain ⟨o, ho, hty⟩ := DataFlow.ty_eq_ok.1 (hs.calls hinst hr himp)
          rw [Func.tyOf_eq ho, hty, hsig.1]
          exact hclosed.returns w hw

end Propagation

theorem Module.facts_closed {m : Module} (hm : m.Searchable) {id : FuncId} {f : Func}
    (hf : m.funcs.get? id = some f) (maxDepth : Nat) (order : Propagation.UserOrder) :
    (f.facts (some m) maxDepth order).Yields fun facts => ∃ entry, Propagation.Workable f entry ∧
      Propagation.Closed f entry (Propagation.Promises (some m) f) facts ∧
      ∀ v, (Facts.known { values := f.params.foldl (fun d v => d.insert v .varying) ∅ } f v).Le
        (facts.known f v) := by
  have hname : ∀ n ∈ [f.name], n ∈ m.funcs.values.map (·.name) := by
    intro n hn
    rw [List.mem_singleton.1 hn]
    exact Propagation.mem_names hf
  exact Propagation.solveNested_spec hm maxDepth (m.funcs.size + 2) hf (by simp) hname (by simp)
    (Propagation.typed_params f)

/-- Every run of a function of a module in which no function is called with an undefined argument is
covered by the facts about the function, however deep calls are evaluated and in whatever order
users are gone through. -/
theorem Module.facts_cover_defined {m : Module} (hm : m.Solvable) {id : FuncId} {f : Func}
    (hf : m.funcs.get? id = some f) (maxDepth : Nat) (order : Propagation.UserOrder) :
    ∃ facts, (f.facts (some m) maxDepth order).outcome = .ok facts ∧
      ∀ {args s t}, Frame.start f args = .ok s → ReachesDefined (some m) f s t →
        facts.Covers f t := by
  obtain ⟨facts, hfacts, entry, hw, hclosed, hknown⟩ :=
    (Module.facts_closed (fun hg => (hm hg).searchable) hf maxDepth order).outcome
  refine ⟨facts, hfacts, fun {args s t} hs hr => hclosed.covers ?_⟩
  exact hclosed.tracks hw hr (hclosed.tracks_params hw hknown hs)

/-- The module of some functions, each with its signature and the steps that build it. -/
def Module.build (funcs : List (String × Signature × List Edit)) : Checked Module :=
  funcs.foldlM (fun m f => do return (← m.addFunc (← Func.build f.1 f.2.1 f.2.2).func).2) {}

theorem Module.build_coherent {funcs : List (String × Signature × List Edit)} {m : Module}
    (hf : funcs.all (·.2.2.all Edit.fits) = true) (h : Module.build funcs = .ok m)
    {id : FuncId} {g : Func} (hg : m.funcs.get? id = some g) : g.Coherent := by
  refine foldlM_ok_induct (fun _ (m : Module) => ∀ {id g}, m.funcs.get? id = some g →
    g.Coherent) h ?_ ?_ hg
  · intro id g hg
    simp [Table.get?] at hg
  · intro pre f post m m' hl hm hstep id g hg
    obtain ⟨b, hb, hstep⟩ := bind_eq_ok.1 hstep
    obtain ⟨⟨id', m''⟩, hadd, hstep⟩ := bind_eq_ok.1 hstep
    cases hstep
    unfold Module.addFunc at hadd
    split at hadd
    · cases hadd
    · cases hadd
      change (m.funcs.add b.func).2.get? id = some g at hg
      rw [Table.get?_add] at hg
      split at hg
      · cases hg
        exact Func.build_coherent
          (List.all_eq_true.1 hf f (hl ▸ List.mem_append_right pre List.mem_cons_self)) hb
      · exact hm hg

def Func.isSolvableIn (f : Func) (m : Module) : Bool :=
  f.isSolvable && f.params.map f.tyOf = f.sig.params &&
    (f.flow.imports.values.all fun imp => ((m.lookup? imp.name).bind m.funcs.get?).all
    (imp.sig.agrees ·.sig)) && f.flow.insts.values.all fun e => match e.inst, e.result? with
      | .call _ target _, some r =>
        (f.flow.imports.get? target).all fun imp => (f.flow.origin? r).any (·.ty = imp.sig.returns)
      | _, _ => true

theorem Func.solvableIn_of_isSolvableIn {f : Func} {m : Module} (hc : f.Coherent)
    (h : f.isSolvableIn m = true) :
    f.SolvableIn m := by
  unfold isSolvableIn at h
  simp only [Bool.and_eq_true] at h
  obtain ⟨⟨⟨hsolv, hparams⟩, himports⟩, hcalls⟩ := h
  obtain ⟨hv, hwide, hphis⟩ := solvable_of_isSolvable hsolv
  refine ⟨hc, hv, hwide, hphis, of_decide_eq_true hparams, fun {target imp id g} himp hid hg => ?_,
    fun {i op target vs r imp} hi hr himp => ?_⟩
  · have hagree := List.all_eq_true.1 himports imp (List.mem_map.2 ⟨(target, imp),
      Table.mem_toList.2 himp, rfl⟩)
    rw [hid] at hagree
    simpa [hg] using hagree
  · obtain ⟨e, he, hinst⟩ := DataFlow.inst?_eq_some.1 hi
    have hcall := List.all_eq_true.1 hcalls e (List.mem_map.2 ⟨(i, e), Table.mem_toList.2 he, rfl⟩)
    have hres : e.result? = some r := by
      unfold DataFlow.result? at hr
      rw [he] at hr
      exact hr
    rw [hinst, hres] at hcall
    simp only [himp, Option.all_some] at hcall
    obtain ⟨ty, ho, -⟩ := hc.flow.result_origin hr
    rw [ho] at hcall
    rw [DataFlow.ty_of_origin ho]
    exact congrArg _ (of_decide_eq_true hcall)

theorem Module.solvable_of_all {funcs : List (String × Signature × List Edit)} {m : Module}
    (hf : funcs.all (·.2.2.all Edit.fits) = true) (h : Module.build funcs = .ok m)
    (hall : m.funcs.values.all (·.isSolvableIn m) = true) : m.Solvable := fun {id g} hg =>
  Func.solvableIn_of_isSolvableIn (Module.build_coherent hf h hg)
    (List.all_eq_true.1 hall g (List.mem_map.2 ⟨(id, g), Table.mem_toList.2 hg, rfl⟩))

/-- A function that calls another one with a constant, and returns what it returns. -/
def callWithConst : Checked Module :=
  Module.build
    [("g", ⟨[.int 32], some (.int 32)⟩,
      [.block (some "entry"), .goTo (.append ⟨0⟩), .insert (.binary .add ⟨0⟩ ⟨0⟩) (.int 32),
        .insert (.unary .retValue ⟨1⟩) .void]),
    ("f", ⟨[], some (.int 32)⟩,
      [.block (some "entry"), .declare "g" ⟨[.int 32], some (.int 32)⟩, .const (.int32 4),
        .goTo (.append ⟨0⟩), .insert (.call .call ⟨0⟩ [⟨0⟩]) (.int 32),
        .insert (.unary .retValue ⟨1⟩) .void])]

theorem callWithConst_covered : ∃ m f facts, callWithConst = .ok m ∧ m.funcs.get? ⟨1⟩ = some f ∧
    (f.facts (some m) 16).outcome = .ok facts ∧
    ∀ {args s t}, Frame.start f args = .ok s → ReachesDefined (some m) f s t →
      facts.Covers f t := by
  obtain ⟨m, hm, h⟩ := exists_of_any (x := callWithConst) (p := fun m =>
    m.funcs.values.all (·.isSolvableIn m) && (m.funcs.get? ⟨1⟩).isSome) (by decide +kernel)
  rw [Bool.and_eq_true] at h
  obtain ⟨f, hf⟩ := Option.isSome_iff_exists.1 h.2
  have hsolv : m.Solvable := Module.solvable_of_all (by decide) hm h.1
  obtain ⟨facts, hfacts, hcover⟩ := Module.facts_cover_defined hsolv hf 16 .ascending
  exact ⟨m, f, facts, hm, hf, hfacts, hcover⟩

def Frame.advance (m : Module) (f : Func) (s : Frame) : Option Frame :=
  match s.step f with
  | .ok (.next t) => some t
  | .ok (.call i target args) => do
    let g ← f.callee? (some m) target
    let entry ← (s.activate g args).toOption
    match entry.step g with
    | .ok (.done result?) =>
      some ({ s with memory := entry.memory, fresh := entry.fresh }.resume f i result?)
    | _ => none
  | _ => none

def Frame.returned? (f : Func) (t : Frame) : Option Datum :=
  match t.step f with
  | .ok (.done result?) => result?
  | _ => none

theorem Frame.step_of_returned? {f : Func} {t : Frame} {d : Datum} (h : t.returned? f = some d) :
    t.step f = .ok (.done (some d)) := by
  unfold returned? at h
  split at h
  · rename_i hstep
    rw [hstep, h]
  · cases h

theorem Frame.advance_reaches {m : Module} {f : Func} {s t : Frame} (h : s.advance m f = some t) :
    Reaches (some m) f s t := by
  unfold advance at h
  split at h
  · rename_i hstep
    cases h
    exact (Reaches.refl f s).next hstep
  · rename_i hstep
    obtain ⟨g, hg, h⟩ := Option.bind_eq_some_iff.1 h
    obtain ⟨entry, hentry, h⟩ := Option.bind_eq_some_iff.1 h
    split at h
    · rename_i hdone
      cases h
      exact (Reaches.refl f s).call hstep hg (ok_of_toOption hentry) (.refl g entry) hdone
    · cases h
  · cases h

/-- There are no registers, and the entry has neither predecessors nor phis. -/
def Func.isPlain (f : Func) : Bool :=
  f.flow.values.toList.all (!·.2.origin.isReg) &&
    f.entry.toOption.any fun entry => (f.predecessors entry).isEmpty &&
    (f.phis entry).toOption.any (·.isEmpty)

def overlooks (m : Module) (args : List Datum) (returned known : Word) (f : Func) : Bool :=
  ((f.facts (some m) 16).outcome.toOption.any fun facts => facts.returns = .const known) &&
    (Frame.start f args).toOption.any fun s =>
      (((s.advance m f).bind (Frame.advance m f)).bind (Frame.advance m f)).any fun t =>
        t.returned? f = some (.word returned)

theorem runs_of_overlooks {m : Module} {args : List Datum} {returned known : Word} {f : Func}
    (h : overlooks m args returned known f = true) :
    ∃ facts s t, (f.facts (some m) 16).outcome = .ok facts ∧ Frame.start f args = .ok s ∧ Reaches
      (some m) f s t ∧ t.step f = .ok (.done (some (.word returned))) ∧
      facts.returns = .const known := by
  unfold overlooks at h
  rw [Bool.and_eq_true] at h
  obtain ⟨facts, hfacts, hknown⟩ := exists_of_any h.1
  obtain ⟨s, hs, hrun⟩ := exists_of_any h.2
  cases ht : ((s.advance m f).bind (Frame.advance m f)).bind (Frame.advance m f) with
  | none =>
    rw [ht] at hrun
    cases hrun
  | some t =>
    rw [ht] at hrun
    obtain ⟨t₂, ht₂, h₃⟩ := Option.bind_eq_some_iff.1 ht
    obtain ⟨t₁, h₁, h₂⟩ := Option.bind_eq_some_iff.1 ht₂
    refine ⟨facts, s, t, hfacts, hs, ?_, Frame.step_of_returned? (of_decide_eq_true hrun),
      of_decide_eq_true hknown⟩
    exact ((Frame.advance_reaches h₁).trans (Frame.advance_reaches h₂)).trans
      (Frame.advance_reaches h₃)

/-- A function that may call another one with `undef`, which returns a constant all the same. -/
def callWithUndef : Checked Module :=
  Module.build
    [("g", ⟨[.int 32], some (.int 32)⟩,
      [.block (some "entry"), .const (.int32 5), .goTo (.append ⟨0⟩),
        .insert (.unary .retValue ⟨1⟩) .void]),
    ("f", ⟨[.int 1], some (.int 32)⟩,
      [.block (some "entry"), .block (some "left"), .block (some "right"), .block (some "join"),
        .declare "g" ⟨[.int 32], some (.int 32)⟩, .undef (.int 32), .const (.int32 3),
        .goTo (.append ⟨0⟩), .insert (.branch .brCond ⟨0⟩ ⟨1⟩ ⟨2⟩) .void,
        .goTo (.append ⟨1⟩), .insert (.call .call ⟨0⟩ [⟨1⟩]) (.int 32),
        .insert (.jump .br ⟨3⟩) .void, .goTo (.append ⟨2⟩), .insert (.jump .br ⟨3⟩) .void,
        .goTo (.append ⟨3⟩), .insert (.phi .phi [⟨3⟩, ⟨2⟩] [⟨1⟩, ⟨2⟩]) (.int 32),
        .insert (.unary .retValue ⟨4⟩) .void])]

/-- The function comes to return 5, but the facts say that it returns 3. -/
theorem callWithUndef_not_covered : ∃ m f facts s t, callWithUndef = .ok m ∧ m.Solvable ∧
    (∀ {id g}, m.funcs.get? id = some g → g.isPlain = true) ∧
    m.funcs.get? ⟨1⟩ = some f ∧ (f.facts (some m) 16).outcome = .ok facts ∧
    Frame.start f [.word (.ofBool true)] = .ok s ∧ Reaches (some m) f s t ∧
    t.step f = .ok (.done (some (.word ⟨32, 5, by decide, by decide⟩))) ∧
    facts.returns = .const ⟨32, 3, by decide, by decide⟩ := by
  obtain ⟨m, hm, h⟩ := exists_of_any (x := callWithUndef) (p := fun m =>
    m.funcs.values.all (·.isSolvableIn m) && m.funcs.values.all Func.isPlain &&
      (m.funcs.get? ⟨1⟩).any (overlooks m [.word (.ofBool true)] ⟨32, 5, by decide, by decide⟩ ⟨32,
      3, by decide, by decide⟩))
    (by decide +kernel)
  simp only [Bool.and_eq_true] at h
  obtain ⟨⟨hsolv, hplain⟩, hrun⟩ := h
  cases hf : m.funcs.get? ⟨1⟩ with
  | none =>
    rw [hf] at hrun
    cases hrun
  | some f =>
    rw [hf] at hrun
    obtain ⟨facts, s, t, hfacts, hs, hr, hd, hknown⟩ := runs_of_overlooks hrun
    refine ⟨m, f, facts, s, t, hm, Module.solvable_of_all (by decide) hm hsolv, fun {id g} hg => ?_,
      hf, hfacts, hs, hr, hd, hknown⟩
    exact List.all_eq_true.1 hplain g (List.mem_map.2 ⟨(id, g), Table.mem_toList.2 hg, rfl⟩)

end MiddleEnd
