import MiddleEnd.Execution.Calls
import MiddleEnd.Proofs.Building
import MiddleEnd.Proofs.Fixpoint

/-!
# Facts that cover every run

The facts that propagation finds about a function cover its runs: blocks that are entered may run,
edges that are taken may be taken, and a word that a value holds is admitted by what is known about
the value. Facts from which nothing more follows are an invariant of the steps of a run. A call that
is evaluated by a search of its own is covered as long as no argument is undefined: about an
undefined argument the search learns nothing, and the result of the call stays unknown.
-/

namespace MiddleEnd

/-- A run of `f` in which no function of the module is called with an undefined argument. -/
inductive ReachesDefined (m? : Option Module) : Func → Frame → Frame → Prop where
  | refl (f : Func) (s : Frame) : ReachesDefined m? f s s
  | next {f : Func} {s t u : Frame} :
      ReachesDefined m? f s t → t.step f = .ok (.next u) → ReachesDefined m? f s u
  | call {f g : Func} {s t entry last : Frame} {i : InstId} {target : ImportId} {args : List Datum}
      {result? : Option Datum} :
      ReachesDefined m? f s t → t.step f = .ok (.call i target args) →
      f.callee? m? target = some g →
      .undefined ∉ args → t.activate g args = .ok entry → ReachesDefined m? g entry last →
      last.step g = .ok (.done result?) →
      ReachesDefined m? f s
        ({ t with memory := last.memory, fresh := last.fresh }.resume f i result?)
  | foreign {f : Func} {s t : Frame} {i : InstId} {target : ImportId} {args : List Datum}
      {result? : Option Datum} :
      ReachesDefined m? f s t → t.step f = .ok (.call i target args) → f.callee? m? target = none →
      f.mayReceive target result? → ReachesDefined m? f s (t.resume f i result?)

theorem Reaches.defined {f : Func} {s t : Frame} (h : Reaches none f s t) :
    ReachesDefined none f s t := by
  induction h with
  | refl f s => exact .refl f s
  | next _ e ih => exact ih.next e
  | call _ _ hg => cases hg
  | foreign _ e hn hr ih => exact ih.foreign e hn hr

namespace Frame

variable {f : Func} {s : Frame}

theorem yield_ne_call {i j : InstId} {d : Datum} {target : ImportId} {args : List Datum} :
    s.yield f j d ≠ .ok (.call i target args) := by
  intro h
  obtain ⟨v, -, h⟩ := yield_eq_ok.1 h
  cases h

/-- Only a call instruction calls. -/
theorem call_of_step {i : InstId} {target : ImportId} {args : List Datum}
    (h : s.step f = .ok (.call i target args)) :
    ∃ rest op vs, s.rest = i :: rest ∧ f.flow.inst? i = some (.call op target vs) ∧ vs.mapM
      (s.read f) = .ok args := by
  unfold step at h
  split at h
  · cases h
  rename_i j rest hrest
  split at h
  case h_2 => cases h
  rename_i inst hinst
  cases inst with
  | nullary op =>
    simp only [execute] at h
    split at h
    · exact absurd h yield_ne_call
    · split at h <;> cases h
  | unary op x =>
    simp only [execute] at h
    split at h
    · obtain ⟨cell, -, h⟩ := bind_eq_ok.1 h
      exact absurd h yield_ne_call
    · obtain ⟨d, -, h⟩ := bind_eq_ok.1 h
      split at h
      · split at h <;> cases h
      · obtain ⟨r, -, h⟩ := bind_eq_ok.1 h
        exact absurd h yield_ne_call
  | binary op x y =>
    simp only [execute] at h
    split at h
    · obtain ⟨cell, -, h⟩ := bind_eq_ok.1 h
      obtain ⟨d, -, h⟩ := bind_eq_ok.1 h
      cases h
    · split at h
      · obtain ⟨d, -, h⟩ := bind_eq_ok.1 h
        cases h
      · obtain ⟨a, -, h⟩ := bind_eq_ok.1 h
        obtain ⟨b, -, h⟩ := bind_eq_ok.1 h
        obtain ⟨r, -, h⟩ := bind_eq_ok.1 h
        exact absurd h yield_ne_call
  | phi op args preds => cases h
  | jump op b =>
    obtain ⟨t, -, h⟩ := map_eq_ok.1 h
    cases h
  | branch op c t e =>
    simp only [execute] at h
    obtain ⟨d, -, h⟩ := bind_eq_ok.1 h
    split at h
    · obtain ⟨t, -, h⟩ := map_eq_ok.1 h
      cases h
    · cases h
    · cases h
  | call op callee vs =>
    simp only [execute] at h
    obtain ⟨data, hdata, h⟩ := bind_eq_ok.1 h
    cases h
    exact ⟨rest, op, vs, hrest, hinst, hdata⟩

theorem Gives.op {i : InstId} {inst : Inst} {d : Datum} (h : Gives f s i inst d)
    (hform : Verify.formFits inst = true) :
    inst.op = .alloca ∨ inst.op = .load ∨ inst.op.isPure = true := by
  cases h with
  | alloca => exact .inl rfl
  | load => exact .inr (.inl rfl)
  | unary hl hr =>
    refine .inr (.inr ?_)
    simp only [Verify.formFits, hl, hr, decide_false, Bool.false_or, Bool.or_eq_true] at hform
    simp only [Inst.op, Opcode.isPure, Bool.or_eq_true]
    exact hform.elim (fun h => .inl (.inl (.inr h))) .inr
  | binary hs hc =>
    refine .inr (.inr ?_)
    simp only [Verify.formFits, hs, hc, decide_false, Bool.false_or, Bool.or_eq_true] at hform
    simp only [Inst.op, Opcode.isPure, Bool.or_eq_true]
    exact hform.elim (fun h => .inl (.inl (.inl h))) fun h => .inl (.inr h)

end Frame

namespace Facts

/-- The frame is as the facts foresee. -/
structure Tracks (facts : Facts) (f : Func) (t : Frame) : Prop where
  runs : facts.runs t.block = true
  source : ∀ {p}, t.source? = some p → facts.taken p t.block = true
  suffix : ∃ pre, f.insts t.block = .ok (pre ++ t.rest)
  values : ∀ {v d}, t.values v = some d → (facts.known f v).Admits d
  origin : ∀ {v d}, t.values v = some d → ∃ o, f.flow.origin? v = some o

open Propagation

variable {facts : Facts} {f : Func} {entry : BlockId} {spec : CallSpec} {s t : Frame}

theorem Tracks.read (h : Tracks facts f t) {v : ValueId} {d : Datum} (hd : t.read f v = .ok d) :
    (facts.known f v).Admits d := by
  unfold Frame.read at hd
  split at hd
  · rename_i ho
    cases hd
    unfold known
    rw [ho]
    exact .inr rfl
  · cases hd
    exact LatticeValue.admits_undefined _
  · rename_i hv _ _
    cases hd
    exact h.values hv
  · cases hd

theorem Tracks.settled (hc : Closed f entry spec facts) (h : Tracks facts f t) {i : InstId}
    {rest : List InstId} {inst : Inst} (hrest : t.rest = i :: rest)
    (hinst : f.flow.inst? i = some inst) :
    Settled f spec facts (fun a t => facts.taken a t = true) t.block i inst := by
  obtain ⟨pre, hpre⟩ := h.suffix
  exact hc.settled h.runs hpre (hrest ▸ List.mem_append_right pre List.mem_cons_self) hinst

theorem Tracks.tail (h : Tracks facts f t) {i : InstId} {rest : List InstId}
    (hrest : t.rest = i :: rest) :
    Tracks facts f { t with rest } := by
  obtain ⟨pre, hpre⟩ := h.suffix
  refine { h with suffix := ⟨pre ++ [i], ?_⟩ }
  rw [hpre, hrest, List.append_assoc]
  rfl

theorem Tracks.set (h : Tracks facts f t) {v : ValueId} {d : Datum} {o : ValueDef}
    (ho : f.flow.origin? v = some o) (hd : (facts.known f v).Admits d) :
    Tracks facts f (t.set v d) := by
  have hset : ∀ {w e}, (t.set v d).values w = some e → w = v ∧ e = d ∨ t.values w = some e := by
    intro w e hw
    simp only [Frame.set] at hw
    split at hw
    · rename_i hwv
      exact .inl ⟨hwv, (Option.some.inj hw).symm⟩
    · exact .inr hw
  refine { h with values := fun hw => ?_, origin := fun hw => ?_ }
  · rcases hset hw with ⟨rfl, rfl⟩ | hw
    · exact hd
    · exact h.values hw
  · rcases hset hw with ⟨rfl, rfl⟩ | hw
    · exact ⟨o, ho⟩
    · exact h.origin hw

theorem eq_varying {x : LatticeValue} (h : LatticeValue.Le .varying x) : x = .varying := by
  cases x <;> first
    | rfl
    | cases h

theorem Tracks.goes (h : Tracks facts f t) {inst : Inst} {b : BlockId}
    (hg : Frame.Goes f t inst b) :
    Heads f facts inst b := by
  cases hg with
  | jump => exact .jump
  | branch hc =>
    rcases LatticeValue.admits_word.1 (h.read hc) with hk | hk
    · split
      · exact .onFalse hk
      · exact .onTrue hk
    · exact .const hk

/-- A step leads from frame to frame as foreseen. -/
theorem Tracks.step (hf : Workable f entry) (hc : Closed f entry spec facts) (h : Tracks facts f s)
    (hstep : s.step f = .ok (.next t)) : Tracks facts f t := by
  cases Frame.step_next_iff.1 hstep with
  | @yields i rest inst v d hrest hinst hv hg =>
    obtain ⟨ty, ho, -⟩ := hf.coherent.flow.result_origin hv
    obtain ⟨hform, hrule⟩ := hf.types hinst
    have hop := hg.op hform
    have hterm : inst.op.isTerminator = false := by
      rcases hop with h | h | h
      · rw [h]
        rfl
      · rw [h]
        rfl
      · revert h
        cases inst.op <;> decide
    obtain ⟨x, hx, hle⟩ := (h.settled hc hrest hinst).value hterm v hv
    refine (h.tail hrest).set ho ?_
    unfold Wants at hx
    rcases hop with hop | hop | hpure
    · rw [hop] at hx
      cases hx
      rw [eq_varying hle]
      trivial
    · rw [hop] at hx
      cases hx
      rw [eq_varying hle]
      trivial
    · obtain ⟨x', hx', heval⟩ :=
        evalPure_spec hf.coherent.flow hinst hform hrule hpure (hf.wide i) hc.typed
      have hxx : x' = x := by
        split at hx
        · rename_i hop
          rw [hop] at hpure
          cases hpure
        · rename_i hop
          rw [hop] at hpure
          cases hpure
        · rw [if_pos hpure, hx'] at hx
          exact Except.ok.inj hx
      subst hxx
      exact (heval.admits (fun w _ a ha => h.read ha) hg).mono hle
  | stores hrest => exact { h.tail hrest with }
  | @copies i rest x y d hrest hinst hd =>
    obtain ⟨hreg, -⟩ := (hf.types hinst).2
    obtain ⟨o, ho⟩ := hf.coherent.flow.operand hinst (v := x) (by simp [Inst.args])
    rw [ho] at hreg
    refine (h.tail hrest).set ho ?_
    cases o with
    | reg ty =>
      unfold known
      rw [ho]
      trivial
    | _ => cases hreg
  | @enters i rest inst b t hrest hinst hg hent =>
    obtain ⟨xs, hentered⟩ := Frame.enter_spec hf.coherent hent
    have htaken : facts.taken s.block b = true := (h.settled hc hrest hinst).goes (h.goes hg)
    have hruns := hc.landed htaken
    have hnew : ∀ {w d}, t.values w = some d →
        (∃ phi ∈ xs.takeWhile f.flow.isPhi, f.flow.result? phi = some w) ∨ s.values w = some d := by
      intro w d hw
      by_cases hphi : ∃ phi ∈ xs.takeWhile f.flow.isPhi, f.flow.result? phi = some w
      · exact .inl hphi
      · rw [hentered.kept w fun phi hmem hres => hphi ⟨phi, hmem, hres⟩] at hw
        exact .inr hw
    refine ⟨hentered.block ▸ hruns, fun hp => ?_, ⟨xs.takeWhile f.flow.isPhi, ?_⟩,
      fun {w d} hw => ?_, fun {w d} hw => ?_⟩
    · rw [hentered.source] at hp
      cases hp
      rw [hentered.block]
      exact htaken
    · rw [hentered.block, hentered.rest, List.takeWhile_append_dropWhile]
      exact hentered.insts
    · rcases hnew hw with ⟨phi, hmem, hres⟩ | hw
      · obtain ⟨v, w', d', hin, hres', hread, hval⟩ := hentered.merged phi hmem
        obtain rfl : w = w' := Option.some.inj (hres.symm.trans hres')
        obtain rfl : d = d' := Option.some.inj (hw.symm.trans hval)
        have hphi : f.flow.isPhi phi = true := List.all_eq_true.1 List.all_takeWhile phi hmem
        have hmem' : phi ∈ xs := (List.takeWhile_prefix _).subset hmem
        obtain ⟨inst', hinst'⟩ := hf.coherent.inst_of_mem hentered.insts hmem'
        have hop : inst'.op = .phi := by
          rw [DataFlow.isPhi_of_inst hinst'] at hphi
          exact beq_iff_eq.1 hphi
        obtain ⟨x, hx, hle⟩ :=
          (hc.settled hruns hentered.insts hmem' hinst').value (by rw [hop]; rfl) w hres
        unfold Wants at hx
        rw [hop] at hx
        exact ((h.read hread).mono (hx (DataFlow.edge_of_incoming? hinst' hin) htaken)).mono hle
      · exact h.values hw
    · rcases hnew hw with ⟨phi, hmem, hres⟩ | hw
      · obtain ⟨ty, ho, -⟩ := hf.coherent.flow.result_origin hres
        exact ⟨_, ho⟩
      · exact h.origin hw

theorem Tracks.resume (hf : Workable f entry) (h : Tracks facts f t) {i : InstId}
    {rest : List InstId} {result? : Option Datum} (hrest : t.rest = i :: rest)
    (hd : ∀ {r d}, f.flow.result? i = some r → result? = some d → (facts.known f r).Admits d)
    (memory : Cell → Datum) (fresh : Nat) :
    Tracks facts f ({ t with memory, fresh }.resume f i result?) := by
  have htail : Tracks facts f { t with rest := t.rest.tail, memory, fresh } := by
    rw [hrest]
    exact { h.tail hrest with }
  unfold Frame.resume
  split
  · rename_i hr
    obtain ⟨ty, ho, -⟩ := hf.coherent.flow.result_origin hr
    exact htail.set ho (hd hr rfl)
  · exact htail

theorem Tracks.returns (hc : Closed f entry spec facts) (h : Tracks facts f t) {d : Datum}
    (hd : t.step f = .ok (.done (some d))) : facts.returns.Admits d := by
  obtain ⟨i, rest, x, hrest, hinst, hread, -⟩ := Frame.step_done_iff.1 hd
  exact (h.read hread).mono ((h.settled hc hrest hinst).returns rfl)

end Facts

namespace Propagation

open Facts

/-- What the evaluation of a call promises: nothing is known about functions of other modules, and
what a function of this module returns is admitted, for all defined arguments that are. -/
structure Promises (m? : Option Module) (f : Func) (i : InstId) (ks : List LatticeValue)
    (x : LatticeValue) : Prop where
  foreign : ∀ {op target vs}, f.flow.inst? i = some (.call op target vs) →
    f.callee? m? target = none → x = .varying
  nested : ∀ {op target vs g data s t last d}, f.flow.inst? i = some (.call op target vs) →
    f.callee? m? target = some g → data.length = ks.length →
    (∀ {n : Nat} {k a}, ks[n]? = some k → data[n]? = some a → k.Admits a) → .undefined ∉ data →
    Frame.activate s g data = .ok t → ReachesDefined m? g t last →
    last.step g = .ok (.done (some d)) → x.Admits d

theorem promises_varying (m? : Option Module) (f : Func) (i : InstId) (ks : List LatticeValue) :
    Promises m? f i ks .varying :=
  ⟨fun _ _ => rfl, fun _ _ _ _ _ _ _ _ => trivial⟩

variable {m? : Option Module} {f : Func} {entry : BlockId} {facts : Facts} {s t : Frame}

theorem Closed.tracks (hf : Workable f entry) (hc : Closed f entry (Promises m? f) facts)
    (h : ReachesDefined m? f s t) (hs : facts.Tracks f s) : facts.Tracks f t := by
  induction h with
  | refl => exact hs
  | next _ hstep ih => exact (ih hf hc hs).step hf hc hstep
  | @call f g s t _ last i target args result? _ hstep hg hdef hact hrun hdone ih _ =>
    have ht := ih hf hc hs
    obtain ⟨rest, op, vs, hrest, hinst, hargs⟩ := Frame.call_of_step hstep
    refine ht.resume hf hrest (fun {r d} hr hres => ?_) last.memory last.fresh
    have hop : (Inst.call op target vs).op = .call := of_decide_eq_true (hf.types hinst).1
    obtain ⟨x, hx, hle⟩ := (ht.settled hc hrest hinst).value (by rw [hop]; rfl) r hr
    unfold Wants at hx
    rw [hop] at hx
    subst hres
    refine LatticeValue.Admits.mono (hx.nested hinst hg ?_ ?_ hdef hact hrun hdone) hle
    · rw [List.length_map]
      exact mapM_ok_length hargs
    · intro n k a hk ha
      obtain ⟨v, hv, hread⟩ := mapM_ok_getElem? hargs ha
      rw [List.getElem?_map, show (Inst.call op target vs).args[n]? = some v from hv] at hk
      cases hk
      exact ht.read hread
  | @foreign f s t i target args result? _ hstep hnone _ ih =>
    have ht := ih hf hc hs
    obtain ⟨rest, op, vs, hrest, hinst, -⟩ := Frame.call_of_step hstep
    refine ht.resume hf hrest (fun {r d} hr _ => ?_) t.memory t.fresh
    have hop : (Inst.call op target vs).op = .call := of_decide_eq_true (hf.types hinst).1
    obtain ⟨x, hx, hle⟩ := (ht.settled hc hrest hinst).value (by rw [hop]; rfl) r hr
    unfold Wants at hx
    rw [hop] at hx
    rw [hx.foreign hinst hnone] at hle
    rw [eq_varying hle]
    trivial

theorem typed_of_values {values : Dict ValueId LatticeValue}
    (h : ∀ {v w}, values.get? v = some (.const w) → f.tyOf v = w.ty) :
    Facts.Typed { values } f := by
  intro v w hk
  have hget : (values.get? v).getD .unknown = .const w → f.tyOf v = w.ty := by
    intro hget
    cases hv : values.get? v with
    | none =>
      rw [hv] at hget
      cases hget
    | some x =>
      rw [hv] at hget
      cases hget
      exact h hv
  unfold known at hk
  split at hk
  · rename_i ho
    cases hk
    exact Func.tyOf_eq ho
  · cases hk
  · cases hk
  · exact hget hk

theorem get?_foldl_insert {ps : List (ValueId × LatticeValue)}
    {d : Dict ValueId LatticeValue} {v : ValueId} {x : LatticeValue}
    (h : (ps.foldl (fun d p => d.insert p.1 p.2) d).get? v = some x) :
    (v, x) ∈ ps ∨ d.get? v = some x := by
  induction ps generalizing d with
  | nil => exact .inr h
  | cons p ps ih =>
    rcases ih h with h | h
    · exact .inl (List.mem_cons_of_mem _ h)
    · rw [Dict.get?_insert] at h
      split at h
      · rename_i hp
        cases h
        exact .inl (hp ▸ List.mem_cons_self)
      · exact .inr h

theorem get?_foldl_insert_ne {ps : List (ValueId × LatticeValue)}
    {d : Dict ValueId LatticeValue} {v : ValueId} (h : v ∉ ps.map (·.1)) :
    (ps.foldl (fun d p => d.insert p.1 p.2) d).get? v = d.get? v := by
  induction ps generalizing d with
  | nil => rfl
  | cons p ps ih =>
    rw [List.map_cons, List.mem_cons, not_or] at h
    rw [List.foldl_cons, ih h.2, Dict.get?_insert, if_neg fun he => h.1 he.symm]

theorem get?_foldl_insert_mem {ps : List (ValueId × LatticeValue)} (hn : (ps.map (·.1)).Nodup)
    {d : Dict ValueId LatticeValue} {p : ValueId × LatticeValue} (hp : p ∈ ps) :
    (ps.foldl (fun d p => d.insert p.1 p.2) d).get? p.1 = some p.2 := by
  induction ps generalizing d with
  | nil => cases hp
  | cons q ps ih =>
    rw [List.map_cons, List.nodup_cons] at hn
    rcases List.mem_cons.1 hp with rfl | hp
    · rw [List.foldl_cons, get?_foldl_insert_ne hn.1, Dict.get?_insert, if_pos rfl]
    · exact ih hn.2 hp

theorem tracks_start (hf : Workable f entry) {spec : CallSpec} (hc : Closed f entry spec facts)
    {args : List Datum} (hs : Frame.start f args = .ok s)
    (hargs : ∀ {n : Nat} {v d}, f.params[n]? = some v → args[n]? = some d →
      (facts.known f v).Admits d) (memory : Cell → Datum)
    (activation fresh : Nat) : facts.Tracks f { s with memory, activation, fresh } := by
  obtain ⟨b, hb, hs⟩ := bind_eq_ok.1 hs
  obtain ⟨rest, hrest, hs⟩ := bind_eq_ok.1 hs
  cases hs
  obtain rfl : entry = b := Except.ok.inj (hf.starts.symm.trans hb)
  have hparam : ∀ {v d}, (f.params.idxOf? v).bind (args[·]?) = some d →
      ∃ n : Nat, f.params[n]? = some v ∧ args[n]? = some d := by
    intro v d hv
    obtain ⟨n, hn, hd⟩ := Option.bind_eq_some_iff.1 hv
    exact ⟨n, (idxOf?_eq_some hf.coherent.flow.params_nodup).1 hn, hd⟩
  refine ⟨hc.starts, fun hp => (nomatch hp), ⟨[], hrest⟩, fun hv => ?_, fun hv => ?_⟩
  · obtain ⟨n, hn, hd⟩ := hparam hv
    exact hargs hn hd
  · obtain ⟨n, hn, -⟩ := hparam hv
    obtain ⟨ty, p, ho⟩ := hf.coherent.flow.param_origin (List.mem_of_getElem? hn)
    exact ⟨_, ho⟩

end Propagation

/-- The facts cover a frame: the block, the edge it was entered by, the words that values hold and
the one that is returned. -/
structure Facts.Covers (facts : Facts) (f : Func) (t : Frame) : Prop where
  block : facts.runs t.block = true
  edge : ∀ {p}, t.source? = some p → facts.taken p t.block = true
  values : ∀ {v w}, t.values v = some (.word w) → facts.value f v = .ok .varying ∨
    facts.value f v = .ok (.const w)
  returns : ∀ {w}, t.step f = .ok (.done (some (.word w))) → facts.returns = .varying ∨
    facts.returns = .const w

namespace Propagation

open Facts

variable {f : Func} {entry : BlockId} {facts : Facts}

theorem Closed.covers {spec : CallSpec} {t : Frame} (hc : Closed f entry spec facts)
    (h : facts.Tracks f t) :
    facts.Covers f t where
  block := h.runs
  edge := h.source
  values hv := by
    obtain ⟨o, ho⟩ := h.origin hv
    rw [value_ok ho]
    exact (LatticeValue.admits_word.1 (h.values hv)).imp (congrArg _) (congrArg _)
  returns hd := LatticeValue.admits_word.1 (h.returns hc hd)

theorem workable_of_verified (hc : f.Coherent) (hv : f.errors = .ok [])
    (hwide : ∀ v, f.flow.ty v ≠ .ok (.int 0))
    (hphis : ∀ c phis, f.Reachable c → f.phis c = .ok phis →
      ∀ i ∈ phis, ∃ r, f.flow.result? i = some r) :
    ∃ entry, Workable f entry := by
  obtain ⟨entry, hvalid⟩ := (Func.errors_eq_nil_iff hc).1 hv
  exact ⟨entry, hc, hvalid.starts, hvalid.shape, hvalid.types, hc.yieldTy_ne (by decide) hwide,
    hvalid.phi_yields hphis⟩

theorem foldl_varying (vs : List ValueId) (d : Dict ValueId LatticeValue) :
    vs.foldl (fun d v => d.insert v .varying) d =
      (vs.map fun v => (v, LatticeValue.varying)).foldl (fun d p => d.insert p.1 p.2) d := by
  rw [List.foldl_map]

theorem known_param (hc : f.Coherent) {v : ValueId} (hv : v ∈ f.params) :
    Facts.known { values := f.params.foldl (fun d v => d.insert v .varying) ∅ } f v = .varying := by
  obtain ⟨ty, p, ho⟩ := hc.flow.param_origin hv
  have hget : (f.params.foldl (fun d v => d.insert v .varying) (∅ : Dict ValueId LatticeValue)).get?
      v = some .varying := by
    have hnodup : ((f.params.map fun v => (v, LatticeValue.varying)).map (·.1)).Nodup := by
      rw [List.map_map]
      show (f.params.map id).Nodup
      rw [List.map_id]
      exact hc.flow.params_nodup
    rw [foldl_varying]
    exact get?_foldl_insert_mem hnodup (p := (v, .varying)) (List.mem_map.2 ⟨v, hv, rfl⟩)
  unfold known
  rw [ho]
  simp only [hget]
  rfl

theorem typed_params (f : Func) :
    Facts.Typed { values := f.params.foldl (fun d v => d.insert v .varying) ∅ } f := by
  refine typed_of_values fun {v w} hget => ?_
  rw [foldl_varying] at hget
  rcases get?_foldl_insert hget with h | h
  · obtain ⟨u, -, he⟩ := List.mem_map.1 h
    cases he
  · cases h

theorem Closed.tracks_params (hf : Workable f entry) {spec : CallSpec}
    (hc : Closed f entry spec facts)
    (hknown : ∀ v, (Facts.known { values := f.params.foldl (fun d v => d.insert v .varying) ∅ } f
      v).Le (facts.known f v)) {args : List Datum} {s : Frame} (hs : Frame.start f args = .ok s) :
      facts.Tracks f s := by
  refine tracks_start hf hc hs (fun {n v d} hn _ => ?_) s.memory s.activation s.fresh
  have hv := hknown v
  rw [known_param hf.coherent (List.mem_of_getElem? hn)] at hv
  rw [eq_varying hv]
  trivial

end Propagation

/-- Every run of a function that verifies is covered by the facts about the function, whatever its
calls return and in whatever order users are gone through, if all phis of reachable blocks yield
values. -/
theorem Func.facts_cover {f : Func} (hc : f.Coherent) (hv : f.errors = .ok [])
    (hwide : ∀ v, f.flow.ty v ≠ .ok (.int 0))
    (hphis : ∀ c phis, f.Reachable c → f.phis c = .ok phis →
      ∀ i ∈ phis, ∃ r, f.flow.result? i = some r)
    (maxDepth : Nat) (order : Propagation.UserOrder) :
    ∃ facts, (f.facts none maxDepth order).outcome = .ok facts ∧
      ∀ {args s t}, Frame.start f args = .ok s → Reaches none f s t → facts.Covers f t := by
  obtain ⟨entry, hf⟩ := Propagation.workable_of_verified hc hv hwide hphis
  have hcall : Propagation.Answers f (fun _ _ _ => return .varying) (Propagation.Promises none f) :=
    fun _ _ _ _ => Run.yields_pure ⟨Propagation.promises_varying _ _ _ _, fun _ h => (nomatch h)⟩
  obtain ⟨facts, hfacts, hclosed, hknown⟩ :=
    (Propagation.solve_spec order hf hcall (Propagation.typed_params f)).outcome
  refine ⟨facts, hfacts, fun {args s t} hs hr => hclosed.covers ?_⟩
  exact hclosed.tracks hf hr.defined (hclosed.tracks_params hf hknown hs)

def Func.isSolvable (f : Func) : Bool :=
  f.errors.toOption.any (·.isEmpty) && f.flow.values.toList.all (·.2.origin.ty ≠ .int 0) &&
    f.layout.rows.all fun r => r.insts.all fun i => !f.flow.isPhi i || (f.flow.result? i).isSome

theorem Func.solvable_of_isSolvable {f : Func} (h : f.isSolvable = true) :
    f.errors = .ok [] ∧ (∀ v, f.flow.ty v ≠ .ok (.int 0)) ∧
      ∀ c phis, f.Reachable c → f.phis c = .ok phis →
        ∀ i ∈ phis, ∃ r, f.flow.result? i = some r := by
  unfold isSolvable at h
  rw [Bool.and_eq_true, Bool.and_eq_true] at h
  exact ⟨verified_of_any h.1.1, ty_ne_of_all h.1.2, fun c phis _ hp => result_of_phisYield h.2 hp⟩

/-- A loop that counts to ten and returns a product that is always zero. -/
def countToTen : Checked Builder :=
  Func.build "count" ⟨[.int 32], some (.int 32)⟩
    [.block (some "entry"), .block (some "head"), .block (some "body"), .block (some "exit"),
      .const (.int32 0), .const (.int32 1), .const (.int32 10),
      .goTo (.append ⟨0⟩), .insert (.jump .br ⟨1⟩) .void,
      .goTo (.append ⟨1⟩), .insert (.phi .phi [⟨1⟩] [⟨0⟩]) (.int 32),
      .insert (.binary .slt ⟨4⟩ ⟨3⟩) (.int 1), .insert (.branch .brCond ⟨5⟩ ⟨2⟩ ⟨3⟩) .void,
      .goTo (.append ⟨2⟩), .insert (.binary .add ⟨4⟩ ⟨2⟩) (.int 32), .insert (.jump .br ⟨1⟩) .void,
      .edge ⟨1⟩ ⟨6⟩ ⟨2⟩, .goTo (.append ⟨3⟩), .insert (.binary .mul ⟨0⟩ ⟨1⟩) (.int 32),
      .insert (.unary .retValue ⟨7⟩) .void]

theorem countToTen_covered :
    ∃ b facts, countToTen = .ok b ∧ (b.func.facts none 16).outcome = .ok facts ∧
    ∀ {args s t}, Frame.start b.func args = .ok s → Reaches none b.func s t →
      facts.Covers b.func t := by
  obtain ⟨b, hb, h⟩ := exists_of_any (x := countToTen) (p := fun b => b.func.isSolvable)
    (by decide +kernel)
  obtain ⟨hv, hwide, hphis⟩ := Func.solvable_of_isSolvable h
  obtain ⟨facts, hfacts, hcover⟩ :=
    Func.facts_cover (Func.build_coherent (by decide) hb) hv hwide hphis 16 .ascending
  exact ⟨b, facts, hb, hfacts, hcover⟩

/-- A phi of type `void` stands in a block that control may come to. -/
def voidPhiOnBranch : Checked Builder :=
  Func.build "f" ⟨[.int 1], some (.int 32)⟩
    [.block (some "entry"), .block (some "other"), .block (some "exit"), .undef .void,
      .const (.int32 7),
      .goTo (.append ⟨0⟩), .insert (.branch .brCond ⟨0⟩ ⟨2⟩ ⟨1⟩) .void,
      .goTo (.append ⟨1⟩), .insert (.phi .phi [⟨1⟩] [⟨0⟩]) .void, .insert (.jump .br ⟨2⟩) .void,
      .goTo (.append ⟨2⟩), .insert (.unary .retValue ⟨2⟩) .void]

/-- The function returns, but there are no facts about it. -/
theorem voidPhiOnBranch_no_facts : ∃ b entry e, voidPhiOnBranch = .ok b ∧ b.func.Coherent ∧
    b.func.errors = .ok [] ∧ b.func.entry = .ok entry ∧ b.func.predecessors entry = [] ∧
    b.func.phis entry = .ok [] ∧ (∀ v, b.flow.ty v ≠ .ok (.int 0)) ∧
    b.func.Returns [.word (.ofBool true)] (.word ⟨32, 7, by decide, by decide⟩) ∧
    (b.func.facts none 16).outcome = .error e := by
  obtain ⟨b, hb, h⟩ := exists_of_any (x := voidPhiOnBranch) (p := fun b =>
    b.func.errors.toOption.any (·.isEmpty) && (b.func.entry.toOption.any fun entry =>
    (b.func.predecessors entry).isEmpty &&
      (b.func.phis entry).toOption.any (·.isEmpty)) &&
    b.flow.values.toList.all (·.2.origin.ty ≠ .int 0) &&
    b.func.result? [.word (.ofBool true)] 3 = some (.word ⟨32, 7, by decide, by decide⟩) &&
    (b.func.facts none 16).outcome.toOption.isNone) (by decide +kernel)
  simp only [Bool.and_eq_true] at h
  obtain ⟨⟨⟨⟨hv, hentry⟩, hwide⟩, hret⟩, hfacts⟩ := h
  obtain ⟨entry, hentry, hp⟩ := exists_of_any hentry
  rw [Bool.and_eq_true] at hp
  obtain ⟨phis, hphis, hnil⟩ := exists_of_any hp.2
  cases ho : (b.func.facts none 16).outcome with
  | ok facts =>
    rw [ho] at hfacts
    cases hfacts
  | error e =>
    exact ⟨b, entry, e, hb, Func.build_coherent (by decide) hb, Func.verified_of_any hv, hentry,
      List.isEmpty_iff.1 hp.1, by rw [hphis, List.isEmpty_iff.1 hnil], ty_ne_of_all hwide,
      Func.returns_of_result? (of_decide_eq_true hret), ho⟩

end MiddleEnd
