import MiddleEnd.Proofs.ComponentSearch
import MiddleEnd.Proofs.Reductions

/-!
# Strength reduction comes to an end

An instruction that is reduced goes, and its users take the reduction instead. It can go: a
reduction is no result that an instruction to be looked at later yields, so nothing is left that
uses the result. And it may go: the instructions that define induction variables are not looked at
any more.
-/

namespace MiddleEnd

namespace StrengthReduction

variable {t : DominatorTree} {b : Builder} {s s' : State} {op : Opcode} {iv rc v r : ValueId}
  {i j : InstId} {inst : Inst} {is : List InstId} {w : Nat}

theorem Steady.origin_of_arg (h : Steady t s) (hi : s.flow.inst? i = some inst)
    (hv : v ∈ inst.args) :
    ∃ ty, s.flow.ty v = .ok ty := by
  obtain ⟨o, ho⟩ := h.coherent.flow.operand hi hv
  exact ⟨_, DataFlow.ty_of_origin ho⟩

theorem candidate?_ok (h : Steady t s) (hi : s.flow.inst? i = some inst) :
    ∃ p, candidate? t s inst = .ok p ∧ ∀ {iv rc}, p = some (iv, rc) →
      inst.op.Linear ∧ iv ∈ inst.args ∧ rc ∈ inst.args ∧ ∃ c, s.headers.get? iv = some c := by
  unfold candidate?
  by_cases hop : inst.op ≠ .add ∧ inst.op ≠ .mul ∧ inst.op ≠ .sub
  · rw [if_pos hop]
    exact ⟨none, rfl, fun he => by cases he⟩
  · rw [if_neg hop]
    have hlinear : inst.op.Linear := by
      unfold Opcode.Linear
      by_contra hn
      exact hop ⟨fun he => hn (.inl he), fun he => hn (.inr (.inr he)),
        fun he => hn (.inr (.inl he))⟩
    obtain ⟨x, y, he⟩ := Verify.binary_of_form (h.legible hi).form hlinear
    have hargs : inst.args = [x, y] := by rw [he]; rfl
    have hx : x ∈ inst.args := by rw [hargs]; exact List.mem_cons_self
    have hy : y ∈ inst.args := by rw [hargs]; exact List.mem_cons_of_mem _ List.mem_cons_self
    obtain ⟨_, htx⟩ := h.origin_of_arg hi hx
    obtain ⟨_, hty⟩ := h.origin_of_arg hi hy
    obtain ⟨p, hp, hpx⟩ := isCandidate_ok (t := t) (x := x) hty
    obtain ⟨q, hq, hqy⟩ := isCandidate_ok (t := t) (x := y) htx
    rw [hargs, show Checked.nth [x, y] 0 = .ok x from rfl,
      show Checked.nth [x, y] 1 = .ok y from rfl]
    simp only [ok_bind, hp, hq]
    cases p with
    | true =>
      refine ⟨_, rfl, fun he => ?_⟩
      cases he
      exact ⟨hlinear, List.mem_cons_self, List.mem_cons_of_mem _ List.mem_cons_self, hpx rfl⟩
    | false =>
      by_cases hsub : inst.op = .sub
      · refine ⟨none, ?_, fun he => by cases he⟩
        simp [hsub]
      · cases q with
        | true =>
          refine ⟨some (y, x), by simp [hsub], fun he => ?_⟩
          cases he
          exact ⟨hlinear, List.mem_cons_of_mem _ List.mem_cons_self, List.mem_cons_self, hqy rfl⟩
        | false => exact ⟨none, by simp [hsub], fun he => by cases he⟩

/-- A reduction of an induction variable, or what computes the same before a loop. -/
inductive Call.Begins (t : DominatorTree) (iv rc : ValueId) : Call → Prop where
  | reduce : Begins t iv rc (.reduce iv rc)
  | applyTo {header d : BlockId} (before : t.idom? header = some d) :
      Begins t iv rc (.applyTo iv rc header)

theorem Steady.ready (h : Steady t s) (hi : s.flow.inst? i = some inst)
    (hcandidate : candidate? t s inst = .ok (some (iv, rc))) :
    inst.op.Linear ∧ ∃ w, (∃ r, s.flow.result? i = some r ∧ s.flow.ty r = .ok (.int w)) ∧
      ∀ {c}, Call.Begins t iv rc c → Ready t s s w c := by
  obtain ⟨p, hp, hfacts⟩ := candidate?_ok h hi
  cases hp.symm.trans hcandidate
  obtain ⟨hop, hiv, hrc, c, hc⟩ := hfacts rfl
  obtain ⟨⟨w, j, jnst, ho, hj, hplain⟩, -⟩ := h.header hc
  obtain ⟨ty, hty⟩ := h.uniform i inst hi (.inr hop)
  cases (hty.args iv hiv).symm.trans (DataFlow.ty_of_origin ho)
  refine ⟨hop, w, ?_, ?_⟩
  · cases hr : s.flow.result? i with
    | none => cases hty.void hr
    | some r => exact ⟨r, rfl, hty.result r hr⟩
  · rintro _ (_ | ⟨before⟩)
    · exact ⟨h, .refl s, hty.args iv hiv, hty.args rc hrc, c, hc⟩
    · exact ⟨h, .refl s, hty.args iv hiv, hty.args rc hrc, _, before⟩

/-- The instructions of the function at the start that nothing noted so far is a result of. -/
structure Awaits (b : Builder) (s : State) (is : List InstId) : Prop where
  nodup : is.Nodup
  there : ∀ i ∈ is, ∃ inst, s.flow.inst? i = some inst
  result? : ∀ i ∈ is, s.flow.result? i = b.flow.result? i
  apart : ∀ i ∈ is, ∀ r, s.flow.result? i = some r → s.headers.get? r = none ∧
    ∀ k, s.memo.get? k ≠ some r

theorem Awaits.sublist (h : Awaits b s is) {js : List InstId} (hs : js.Sublist is) :
    Awaits b s js where
  nodup := h.nodup.sublist hs
  there i hi := h.there i (hs.subset hi)
  result? i hi := h.result? i (hs.subset hi)
  apart i hi := h.apart i (hs.subset hi)

theorem Awaits.keeps (h : Awaits b s is) (hs : Steady t s) (hk : Keeps s s') : Awaits b s' is where
  nodup := h.nodup
  there i hi := by
    obtain ⟨inst, hinst⟩ := h.there i hi
    exact ⟨inst, hk.inst? hinst⟩
  result? i hi := by
    obtain ⟨inst, hinst⟩ := h.there i hi
    exact (hk.result? hinst).trans (h.result? i hi)
  apart i hi r hr := by
    obtain ⟨inst, hinst⟩ := h.there i hi
    rw [hk.result? hinst] at hr
    obtain ⟨ty, ho, -⟩ := hs.coherent.flow.result_origin hr
    obtain ⟨hheader, hmemo⟩ := h.apart i hi r hr
    refine ⟨(hk.header ho).trans hheader, fun k hv => ?_⟩
    obtain ⟨k', hk'⟩ := hk.made hv ho
    exact hmemo k' hk'

theorem Awaits.ne_known (h : Awaits b s (i :: is)) (hr : s.flow.result? i = some r)
    (hv : ∃ k, s.memo.get? k = some v) : v ≠ r := by
  rintro rfl
  obtain ⟨k, hk⟩ := hv
  exact (h.apart i List.mem_cons_self _ hr).2 k hk

theorem Steady.mark (h : Steady t s) (modified : Bool) : Steady t { s with modified } :=
  ⟨h.coherent, h.legible, h.uniform, h.current, h.idom, h.header, h.memo⟩

theorem Steady.replace_ok (h : Steady t s) {ty : Ty} (hr : s.flow.ty r = .ok ty)
    (hv : s.flow.ty v = .ok ty) :
    ∃ g, s.builder.replaceUse r v = .ok (s.builder.withFlow g) ∧ Steady t (s.withFlow g) ∧
      DataFlow.Rewired s.flow g fun _ inst => inst.mapArgs (DataFlow.swap r v) := by
  obtain ⟨o, ho, -⟩ := DataFlow.ty_eq_ok.1 hr
  obtain ⟨o', ho', -⟩ := DataFlow.ty_eq_ok.1 hv
  obtain ⟨n, g, hreplace, hexact, hrewired⟩ :=
    DataFlow.replaceUse_ok (g := s.flow) h.coherent.flow ho ho'
  refine ⟨g, ?_, ?_, hrewired⟩
  · rw [Builder.replaceUse, show s.builder.flow.replaceUse r v = _ from hreplace, ok_bind]
  · refine h.rebuild (b := s.builder.withFlow g) (h.coherent.rewire hexact hrewired)
      ((DataFlow.replaceUse_kept hreplace).legible h.legible)
      (h.uniform.replace hrewired fun hty => ?_) ⟨rfl, rfl, rfl,
      rfl⟩ hrewired.epoch (DataFlow.onward_editing.replaceUse hreplace) (fun _ => False) False.elim
      (fun _ ho => hrewired.origin? ho) fun {j jnst _} hj _ _ =>
      ⟨_, ?_, Inst.op_mapArgs (DataFlow.swap r v) jnst⟩
    · cases hty.symm.trans hr
      exact hv
    · exact (hrewired.inst? j).trans (congrArg (Option.map _) hj)

theorem Steady.remove_ok (h : Steady t s) (hi : s.flow.inst? i = some inst)
    (hop : inst.op.isTerminator = false) (hr : s.flow.result? i = some r)
    (hfree : ∀ j jnst, s.flow.inst? j = some jnst → r ∉ jnst.args)
    (hapart : s.headers.get? r = none ∧ ∀ k, s.memo.get? k ≠ some r) :
    ∃ c, s.builder.removeInst i = .ok c ∧ Steady t { s with builder := c } ∧
      DataFlow.Shrunk s.flow c.flow i := by
  obtain ⟨c, hremove, hcoherent, hshrunk, halike, -⟩ :=
    Builder.removeInst_ok h.coherent hi fun v hv => by
      cases hv.symm.trans hr
      exact hfree
  have hshrunk' : DataFlow.Shrunk s.flow c.flow i := hshrunk
  obtain ⟨g, hg, hc⟩ : ∃ g, s.flow.removeInst i = .ok g ∧ c.flow = g := by
    obtain ⟨_, -, hrest⟩ := bind_eq_ok.1 hremove
    obtain ⟨_, -, hrest⟩ := bind_eq_ok.1 hrest
    obtain ⟨g, hg, hrest⟩ := bind_eq_ok.1 hrest
    cases hrest
    exact ⟨g, hg, rfl⟩
  refine ⟨c, hremove, ?_, hshrunk⟩
  refine h.rebuild hcoherent (hshrunk'.legible h.legible)
    (h.uniform.shrink hshrunk' hcoherent.flow) halike
    (hshrunk'.epoch ((DataFlow.isTerminator_of_inst hi).trans hop))
    (hc ▸ DataFlow.onward_removeInst hg) (· = r) (fun he => he ▸ hapart) (fun hne ho => ?_)
    fun {j jnst v} hj hv hne => ⟨jnst, ?_, rfl⟩
  · rw [hshrunk'.origin?, if_neg fun he => hne (Option.some.inj (he.symm.trans hr)), ho]
  · rw [hshrunk'.inst?, if_neg fun he => hne (Option.some.inj ((he ▸ hv.symm).trans hr)), hj]

theorem Steady.retire_ok (h : Steady t s) (ha : Awaits b s (i :: is))
    (hi : s.flow.inst? i = some inst) (hop : inst.op.isTerminator = false)
    (hr : s.flow.result? i = some r) (hne : v ≠ r) {ty : Ty} (hrt : s.flow.ty r = .ok ty)
    (hvt : s.flow.ty v = .ok ty) :
    ∃ c d, s.builder.replaceUse r v = .ok c ∧ c.removeInst i = .ok d ∧ Steady t
      { s with builder := d } ∧ Awaits b { s with builder := d } is := by
  obtain ⟨g, hreplace, hswapped, hrewired⟩ := h.replace_ok hrt hvt
  have hinst : ∀ {j jnst}, s.flow.inst? j = some jnst →
      g.inst? j = some (jnst.mapArgs (DataFlow.swap r v)) :=
    fun hj => (hrewired.inst? _).trans (congrArg (Option.map _) hj)
  have hfree : ∀ j jnst, g.inst? j = some jnst → r ∉ jnst.args := by
    intro j jnst hj hmem
    rw [hrewired.inst?] at hj
    obtain ⟨old, -, rfl⟩ := Option.map_eq_some_iff.1 hj
    rw [Inst.args_mapArgs] at hmem
    obtain ⟨x, -, hx⟩ := List.mem_map.1 hmem
    unfold DataFlow.swap at hx
    split at hx
    · exact hne hx
    · exact absurd hx ‹_›
  obtain ⟨d, hremove, hsteady, hshrunk⟩ := hswapped.remove_ok (hinst hi) (by rwa [Inst.op_mapArgs])
    ((hrewired.result? i).trans hr) hfree (ha.apart i List.mem_cons_self r hr)
  have hshrunk' : DataFlow.Shrunk g d.flow i := hshrunk
  have hother : ∀ j ∈ is, j ≠ i := fun j hj he => (List.nodup_cons.1 ha.nodup).1 (he ▸ hj)
  have hresult : ∀ j ∈ is, d.flow.result? j = s.flow.result? j := fun j hj => by
    rw [hshrunk'.result?, if_neg (hother j hj), hrewired.result?]
  refine ⟨_, d, hreplace, hremove, hsteady, (List.nodup_cons.1 ha.nodup).2, fun j hj => ?_,
    fun j hj => ?_,
    fun j hj r' hr' => ?_⟩
  · obtain ⟨jnst, hjnst⟩ := ha.there j (List.mem_cons_of_mem _ hj)
    refine ⟨_, (hshrunk'.inst? j).trans ((if_neg (hother j hj)).trans (hinst hjnst))⟩
  · exact (hresult j hj).trans (ha.result? j (List.mem_cons_of_mem _ hj))
  · exact ha.apart j (List.mem_cons_of_mem _ hj) r' ((hresult j hj).symm.trans hr')

theorem reduceInst_ok (h : Steady t s) (ha : Awaits b s (i :: is)) :
    (reduceInst t s i).Succeeds True fun s' => Steady t s' ∧ Awaits b s' is := by
  obtain ⟨inst, hi⟩ := ha.there i List.mem_cons_self
  obtain ⟨p, hp, -⟩ := candidate?_ok h hi
  unfold reduceInst
  refine (Run.succeeds_lift (P := (· = inst)) ⟨_, DataFlow.inst_eq_ok.2 hi, rfl⟩).bind ?_
  rintro inst rfl
  refine (Run.succeeds_lift (P := (· = p)) ⟨_, hp, rfl⟩).bind ?_
  rintro q rfl
  cases q with
  | none => exact Run.succeeds_pure ⟨h, ha.sublist (List.sublist_cons_self ..)⟩
  | some pair =>
    obtain ⟨iv, rc⟩ := pair
    obtain ⟨hop, w, ⟨r, hr, hrt⟩, hready⟩ := h.ready hi hp
    have hcall := enough h hop (2 * ((s.flow.values.bound + 2) * (s.flow.values.bound + 2)))
      (hready .reduce) (by
      have hle := missing_length_le s inst.op s
      have hless :=
        Nat.mul_self_lt_mul_self (Nat.lt_add_of_pos_right (n := s.flow.values.bound) Nat.two_pos)
      simp only [Call.cost]
      omega)
    refine (Run.succeeds_lift (P := (· = r)) ⟨_, DataFlow.result_eq_ok.2 hr, rfl⟩).bind ?_
    rintro _ rfl
    refine hcall.bind ?_
    rintro ⟨v, s'⟩ hreduced
    have ha' := ha.keeps h hreduced.keeps
    have hi' := hreduced.keeps.inst? hi
    have hr' := (hreduced.keeps.result? hi).trans hr
    obtain ⟨c, d, hreplace, hremove, hsteady, hawaits⟩ :=
      hreduced.steady.retire_ok ha' hi' hop.not_terminator hr' (ha'.ne_known hr' hreduced.known)
        (hreduced.keeps.ty hrt) hreduced.ty
    refine (Run.succeeds_log fun _ => ?_).bind fun _ _ => ?_
    · obtain ⟨text, htext⟩ := Verify.instText_ok hreduced.steady.readable hi'
      exact ⟨_, by rw [htext, ok_bind]; rfl⟩
    refine (Run.succeeds_lift (P := (· = c)) ⟨_, hreplace, rfl⟩).bind ?_
    rintro _ rfl
    refine (Run.succeeds_lift (P := (· = d)) ⟨_, hremove, rfl⟩).bind ?_
    rintro _ rfl
    exact Run.succeeds_pure ⟨hsteady.mark true, hawaits.nodup, hawaits.there, hawaits.result?,
      hawaits.apart⟩

theorem allM_ok {α : Type} {p : α → Checked Bool} {xs : List α} (h : ∀ x ∈ xs, ∃ q, p x = .ok q) :
    ∃ q, xs.allM p = .ok q ∧ (q = true → ∀ x ∈ xs, p x = .ok true) := by
  induction xs with
  | nil => exact ⟨true, rfl, fun _ x hx => absurd hx List.not_mem_nil⟩
  | cons x xs ih =>
    obtain ⟨q, hq⟩ := h x List.mem_cons_self
    obtain ⟨qs, hqs, hall⟩ := ih fun y hy => h y (List.mem_cons_of_mem _ hy)
    rw [List.allM, hq, ok_bind]
    cases q with
    | false => exact ⟨false, rfl, fun he => absurd he Bool.false_ne_true⟩
    | true =>
      refine ⟨qs, hqs, fun he y hy => ?_⟩
      rcases List.mem_cons.1 hy with rfl | hy
      · exact hq
      · exact hall he y hy

/-- The checks of an induction variable come back, and let nothing pass but integer phis and linear
operations. -/
theorem fitsComponent_ok (h : Steady t s) (hi : s.flow.inst? i = some inst)
    (hr : s.flow.result? i = some r) (members : List ValueId) (header : BlockId) :
    ∃ q, fitsComponent t s.func members header i = .ok q ∧ (q = true → Derived s r) := by
  obtain ⟨ty, ho, -⟩ := h.coherent.flow.result_origin hr
  have hinvariant : ∀ v ∈ inst.args, ∃ q, isInvariant t s.func v header = .ok q := fun v hv => by
    obtain ⟨o, ho⟩ := h.coherent.flow.operand hi hv
    exact isInvariant_ok ho header
  unfold fitsComponent
  rw [show s.func.flow.inst i = .ok inst from DataFlow.inst_eq_ok.2 hi, ok_bind,
    show s.func.flow.result i = .ok r from DataFlow.result_eq_ok.2 hr, ok_bind,
    show s.func.flow.ty r = .ok ty from DataFlow.ty_of_origin ho, ok_bind]
  cases ty with
  | int w =>
    rw [if_neg (by simp [Ty.isInt])]
    have hderived : inst.op = .phi ∨ inst.op.Linear → Derived s r :=
      fun hop => ⟨w, i, inst, ho, hi, hop⟩
    have hbinary : inst.op.Linear → ∃ x y p q, Checked.nth inst.args 0 = .ok x ∧
        Checked.nth inst.args 1 = .ok y ∧ isInvariant t s.func x header = .ok p ∧
        isInvariant t s.func y header = .ok q := by
      intro hop
      obtain ⟨x, y, he⟩ := Verify.binary_of_form (h.legible hi).form hop
      have hargs : inst.args = [x, y] := by rw [he]; rfl
      obtain ⟨p, hp⟩ := hinvariant x (by rw [hargs]; exact List.mem_cons_self)
      obtain ⟨q, hq⟩ :=
        hinvariant y (by rw [hargs]; exact List.mem_cons_of_mem _ List.mem_cons_self)
      rw [hargs]
      exact ⟨x, y, p, q, rfl, rfl, hp, hq⟩
    cases hop : inst.op with
    | phi =>
      obtain ⟨q, hq, -⟩ :=
        allM_ok (p := fun v =>
          do if v ∈ members then return true else isInvariant t s.func v header)
        fun v (hv : v ∈ inst.args) => by
          split
          · exact ⟨true, rfl⟩
          · exact hinvariant v hv
      exact ⟨q, hq, fun _ => hderived (.inl hop)⟩
    | add =>
      have hlinear : inst.op.Linear := .inl hop
      obtain ⟨x, y, p, q, hx, hy, hp, hq⟩ := hbinary hlinear
      refine Exists.imp (fun c hc => ⟨hc, fun _ => hderived (.inr hlinear)⟩) ?_
      simp only [hx, hy, ok_bind, hp, hq]
      split
      · cases q with
        | true => exact ⟨true, rfl⟩
        | false =>
          rw [if_neg Bool.false_ne_true]
          split
          · exact ⟨p, rfl⟩
          · exact ⟨false, rfl⟩
      · split
        · exact ⟨p, rfl⟩
        · exact ⟨false, rfl⟩
    | sub =>
      have hlinear : inst.op.Linear := .inr (.inl hop)
      obtain ⟨x, y, p, q, hx, hy, hp, hq⟩ := hbinary hlinear
      refine Exists.imp (fun c hc => ⟨hc, fun _ => hderived (.inr hlinear)⟩) ?_
      simp only [hx, hy, ok_bind, hq]
      split
      · exact ⟨q, rfl⟩
      · exact ⟨false, rfl⟩
    | _ => exact ⟨false, rfl, fun he => absurd he Bool.false_ne_true⟩
  | _ => exact ⟨false, rfl, fun he => absurd he Bool.false_ne_true⟩

theorem results_ok {component : List InstId}
    (hc : ∀ i ∈ component, ∃ inst r, s.flow.inst? i = some inst ∧ s.flow.result? i = some r) :
    ∃ rs, component.mapM s.flow.result = .ok rs :=
  mapM_exists fun i hi => by
    obtain ⟨_, r, -, hr⟩ := hc i hi
    exact ⟨r, DataFlow.result_eq_ok.2 hr⟩

theorem inductionHeader?_ok (h : Steady t s) {component : List InstId}
    (hc : ∀ i ∈ component, ∃ inst r, s.flow.inst? i = some inst ∧ s.flow.result? i = some r) :
    ∃ p, inductionHeader? t s.func component = .ok p ∧ ∀ {header}, p = some header →
      (∃ d, t.idom? header = some d) ∧ ∀ i ∈ component, ∀ r, s.flow.result? i = some r →
      Derived s r := by
  unfold inductionHeader?
  split
  · rename_i phi hphi
    cases hblock : s.func.layout.blockOf? phi with
    | none => exact ⟨none, rfl, fun he => by cases he⟩
    | some header =>
      cases hd : t.idom? header with
      | none => exact ⟨none, by simp [hd], fun he => by cases he⟩
      | some d =>
        obtain ⟨members, hmembers⟩ := results_ok hc
        have hmembers' : component.mapM s.func.flow.result = .ok members := hmembers
        obtain ⟨q, hq, hall⟩ :=
          allM_ok (p := fitsComponent t s.func members header) fun i (hi : i ∈ component) => by
            obtain ⟨inst, r, hinst, hr⟩ := hc i hi
            obtain ⟨q, hq, -⟩ := fitsComponent_ok h hinst hr members header
            exact ⟨q, hq⟩
        simp only [hd, Option.isNone_some, Bool.false_eq_true, if_false, hmembers', ok_bind, hq]
        cases q with
        | false => exact ⟨none, rfl, fun he => by cases he⟩
        | true =>
          refine ⟨some header, rfl, fun he => ?_⟩
          cases he
          refine ⟨⟨d, hd⟩, fun i hi r hr => ?_⟩
          obtain ⟨inst, r', hinst, hr'⟩ := hc i hi
          cases hr.symm.trans hr'
          obtain ⟨q, hq, hderived⟩ := fitsComponent_ok h hinst hr members header
          cases hq.symm.trans (hall rfl i hi)
          exact hderived rfl
  · exact ⟨none, rfl, fun he => by cases he⟩

theorem get?_foldl_insert_ne {header : BlockId} {rs : List ValueId} {d : Dict ValueId BlockId}
    (hv : v ∉ rs) :
    (rs.foldl (·.insert · header) d).get? v = d.get? v := by
  induction rs generalizing d with
  | nil => rfl
  | cons r rs ih =>
    obtain ⟨hne, hv⟩ := not_or.1 fun hn => hv (List.mem_cons.2 hn)
    rw [List.foldl_cons, ih hv, Dict.get?_insert, if_neg fun he => hne he.symm]

theorem Steady.notes (h : Steady t s) {header d : BlockId} (hd : t.idom? header = some d)
    {rs : List ValueId} (hrs : ∀ r ∈ rs, Derived s r) :
    Steady t { s with headers := rs.foldl (·.insert · header) s.headers } := by
  induction rs generalizing s with
  | nil => exact h
  | cons r rs ih =>
    exact ih (h.note (hrs r List.mem_cons_self) hd) fun r' hr' =>
      hrs r' (List.mem_cons_of_mem _ hr')

theorem Awaits.notes {component : List InstId} (h : Awaits b s (component ++ is)) (hs : Steady t s)
    {rs : List ValueId} (hrs : component.mapM s.flow.result = .ok rs) (header : BlockId) :
    Awaits b { s with headers := rs.foldl (·.insert · header) s.headers } is := by
  have hrest := h.sublist (List.sublist_append_right component is)
  refine ⟨hrest.nodup, hrest.there, hrest.result?, fun j hj r hr => ?_⟩
  obtain ⟨hheader, hmemo⟩ := hrest.apart j hj r hr
  refine ⟨(get?_foldl_insert_ne fun hmem => ?_).trans hheader, hmemo⟩
  -- Otherwise the value is also the result of an instruction of the component.
  obtain ⟨n, hn⟩ := List.mem_iff_getElem?.1 hmem
  obtain ⟨i, hi, hresult⟩ := mapM_ok_getElem? hrs hn
  obtain ⟨ty, ho, -⟩ := hs.coherent.flow.result_origin (DataFlow.result_eq_ok.1 hresult)
  cases hs.coherent.flow.definer_eq hr ho
  exact List.disjoint_of_nodup_append h.nodup (List.mem_of_getElem? hi) hj

theorem component_results {component : List InstId} (ha : Awaits b s (component ++ is))
    (hyields : 1 < component.length → ∀ i ∈ component, ∃ r, b.flow.result? i = some r)
    (hmany : 1 < component.length) :
    ∀ i ∈ component, ∃ inst r, s.flow.inst? i = some inst ∧ s.flow.result? i = some r := by
  intro i hi
  obtain ⟨inst, hinst⟩ := ha.there i (List.mem_append_left _ hi)
  obtain ⟨r, hr⟩ := hyields hmany i hi
  exact ⟨inst, r, hinst, (ha.result? i (List.mem_append_left _ hi)).trans hr⟩

theorem note_ok {component : List InstId} {header : BlockId} (h : Steady t s)
    (ha : Awaits b s (component ++ is))
    (hyields : 1 < component.length → ∀ i ∈ component, ∃ r, b.flow.result? i = some r)
    (hmany : 1 < component.length)
    (hheader : inductionHeader? t s.func component = .ok (some header)) :
    (processComponent t s component).Succeeds True fun s' => Steady t s' ∧ Awaits b s' is := by
  have hc := component_results ha hyields hmany
  obtain ⟨p, hp, hderived⟩ := inductionHeader?_ok h hc
  cases hp.symm.trans hheader
  obtain ⟨⟨d, hd⟩, hderived⟩ := hderived rfl
  obtain ⟨rs, hrs⟩ := results_ok hc
  unfold processComponent
  rw [if_pos hmany]
  refine (Run.succeeds_lift (P := (· = some header)) ⟨_, hheader, rfl⟩).bind ?_
  rintro _ rfl
  refine (Run.succeeds_log fun _ => ⟨_, rfl⟩).bind fun _ _ => ?_
  refine (Run.succeeds_mapM hrs).bind ?_
  rintro rs rfl
  refine Run.succeeds_pure ⟨h.notes hd fun r hr => ?_, ha.notes h hrs header⟩
  obtain ⟨n, hn⟩ := List.mem_iff_getElem?.1 hr
  obtain ⟨i, hi, hresult⟩ := mapM_ok_getElem? hrs hn
  exact hderived i (List.mem_of_getElem? hi) r (DataFlow.result_eq_ok.1 hresult)

/-- A state that the pass comes to between two instructions, with what is left of the component at
hand and the components after it. -/
inductive Stage (t : DominatorTree) (b : Builder) (components : List (List InstId)) :
    State → List InstId → List (List InstId) → Prop where
  | start : Stage t b components { builder := b } [] components
  | note {s s' : State} {c : List InstId} {rest : List (List InstId)} {header : BlockId}
      (before : Stage t b components s [] (c :: rest)) (many : 1 < c.length)
      (varies : inductionHeader? t s.func c = .ok (some header))
      (done : (processComponent t s c).Gives s') :
      Stage t b components s' [] rest
  | enter {s : State} {c : List InstId} {rest : List (List InstId)}
      (before : Stage t b components s [] (c :: rest))
      (plain : c.length ≤ 1 ∨ inductionHeader? t s.func c = .ok none) :
      Stage t b components s c rest
  | reduce {s s' : State} {i : InstId} {todo : List InstId} {rest : List (List InstId)}
      (before : Stage t b components s (i :: todo) rest) (there : s.flow.hasInst i = true)
      (done : (reduceInst t s i).Gives s') : Stage t b components s' todo rest
  | skip {s : State} {i : InstId} {todo : List InstId} {rest : List (List InstId)}
      (before : Stage t b components s (i :: todo) rest) (gone : s.flow.hasInst i = false) :
      Stage t b components s todo rest

/-- Components of instructions to be looked at, those of more than one instruction yielding values
throughout. -/
structure Listed (b : Builder) (components : List (List InstId)) : Prop where
  start : Awaits b { builder := b } components.flatten
  yields : ∀ c ∈ components, 1 < c.length → ∀ i ∈ c, ∃ r, b.func.flow.result? i = some r

theorem Stage.steady {components rest : List (List InstId)} (hs : Stage t b components s is rest)
    (h : Steady t { builder := b }) (hl : Listed b components) :
    Steady t s ∧ Awaits b s (is ++ rest.flatten) ∧ ∃ pre, components = pre ++ rest := by
  induction hs with
  | start => exact ⟨h, hl.start, [], rfl⟩
  | @note s s' c rest header before many varies done ih =>
    obtain ⟨hsteady, hawaits, pre, rfl⟩ := ih
    rw [List.nil_append, List.flatten_cons] at hawaits
    have hc := (note_ok hsteady hawaits (hl.yields c (List.mem_append_right _ List.mem_cons_self))
      many varies).of_gives done
    exact ⟨hc.1, hc.2, pre ++ [c], by simp⟩
  | @enter s c rest before plain ih =>
    obtain ⟨hsteady, hawaits, pre, rfl⟩ := ih
    exact ⟨hsteady, hawaits, pre ++ [c], by simp⟩
  | reduce _ _ done ih =>
    obtain ⟨hsteady, hawaits, hpre⟩ := ih
    have hi := (reduceInst_ok hsteady hawaits).of_gives done
    exact ⟨hi.1, hi.2, hpre⟩
  | skip _ _ ih =>
    obtain ⟨hsteady, hawaits, hpre⟩ := ih
    exact ⟨hsteady, hawaits.sublist (List.sublist_cons_self ..), hpre⟩

theorem Stage.members {components rest : List (List InstId)} (hs : Stage t b components s is rest)
    (h : Steady t { builder := b }) (hl : Listed b components) :
    (is.foldlM (fun (s : State) i => if s.flow.hasInst i then reduceInst t s i else return s)
      s).Succeeds True
      fun s' => Stage t b components s' [] rest := by
  induction is generalizing s with
  | nil => exact Run.succeeds_pure hs
  | cons i is ih =>
    obtain ⟨hsteady, hawaits, -⟩ := hs.steady h hl
    rw [List.foldlM_cons]
    cases hi : s.flow.hasInst i with
    | true =>
      rw [if_pos rfl]
      exact (reduceInst_ok hsteady hawaits).gives.bind fun s' hs' => ih (hs.reduce hi hs'.1)
    | false =>
      rw [if_neg Bool.false_ne_true, pure_bind]
      exact ih (hs.skip hi)

theorem Stage.component {components rest : List (List InstId)} {c : List InstId}
    (hs : Stage t b components s [] (c :: rest)) (h : Steady t { builder := b })
    (hl : Listed b components) :
    (processComponent t s c).Succeeds True fun s' => Stage t b components s' [] rest := by
  obtain ⟨hsteady, hawaits, pre, rfl⟩ := hs.steady h hl
  rw [List.nil_append, List.flatten_cons] at hawaits
  have hyields := hl.yields c (List.mem_append_right _ List.mem_cons_self)
  by_cases hmany : 1 < c.length
  · obtain ⟨p, hp, -⟩ := inductionHeader?_ok hsteady (component_results hawaits hyields hmany)
    cases p with
    | some header =>
      exact (note_ok hsteady hawaits hyields hmany hp).gives.mono fun s' hs' =>
        hs.note hmany hp hs'.1
    | none =>
      unfold processComponent
      rw [if_pos hmany]
      refine (Run.succeeds_lift (P := (· = none)) ⟨_, hp, rfl⟩).bind ?_
      rintro _ rfl
      exact (hs.enter (.inr hp)).members h hl
  · unfold processComponent
    rw [if_neg hmany]
    exact (hs.enter (.inl (Nat.le_of_not_lt hmany))).members h hl

theorem Stage.components {components rest : List (List InstId)}
    (hs : Stage t b components s [] rest) (h : Steady t { builder := b })
    (hl : Listed b components) :
    (rest.foldlM (processComponent t) s).Succeeds True fun s' => Stage t b components s' [] [] := by
  induction rest generalizing s with
  | nil => exact Run.succeeds_pure hs
  | cons c rest ih =>
    rw [List.foldlM_cons]
    exact (hs.component h hl).bind fun s' hs' => ih hs'

theorem steady_start {entry : BlockId} (hc : b.func.Coherent) (hv : b.func.Valid entry)
    (ht : t.Faithful b.func entry) (hepoch : t.epoch = b.func.flow.epoch) :
    Steady t { builder := b } where
  coherent := hc
  legible := hv.legible
  uniform := hv.uniform hc
  current := by
    show (t.epoch == b.func.flow.epoch) = true
    rw [hepoch, beq_self_eq_true]
  idom hd := hv.shape.closed.connects_mem hv.starts ((ht.idom?_iff _ _).1 hd).2.1.connects
  header hb := by cases hb
  memo hm := by cases hm

theorem result_of_cycle {f : Func} (hf : f.flow.Exact) {i j : InstId} (hne : j ≠ i)
    (hij : Connects f.Needs j i) :
    ∃ r, f.flow.result? i = some r := by
  obtain ⟨p, hp⟩ := hij
  rcases hp.last_step with ⟨he, -⟩ | ⟨k, q, -, ⟨⟨inst, v, ty, -, -, ho⟩, -⟩, -⟩
  · exact absurd he hne
  · exact ⟨v, hf.origin_result ho⟩

theorem listed_start (hc : b.func.Coherent) (ht : DominatorTree.ofFunc b.func = .ok t) :
    ∃ components, b.func.components t = .ok components ∧ Listed b components := by
  obtain ⟨components, -, hcomponents, hnodup, -, hreach, hclasses, -⟩ :=
    Func.componentSearch_classes hc.layout (fun i hi => (hc.placed i).1 hi) (fun b hb =>
      (hc.known b).1 hb) hc.flow.operand ht
  have hthere : ∀ i ∈ components.flatten, ∃ inst, b.func.flow.inst? i = some inst := by
    intro i hi
    obtain ⟨bl, hbl, -⟩ := (hreach i).1 hi
    obtain ⟨xs, hxs, hx⟩ := hc.blockOf?_eq_some.1 hbl
    exact hc.inst_of_mem hxs hx
  refine ⟨components, hcomponents, ⟨hnodup, hthere, fun _ _ => rfl, fun _ _ _ _ => ⟨rfl, ?_⟩⟩, ?_⟩
  · intro k hk
    cases hk
  · intro c hcm hmany i hi
    have hdistinct : c.Nodup := (List.nodup_flatten.1 hnodup).1 c hcm
    obtain ⟨j, hj, hne⟩ : ∃ j ∈ c, j ≠ i := by
      by_contra hn
      have hall : ∀ j ∈ c, j = i := fun j hj => by_contra fun hne => hn ⟨j, hj, hne⟩
      have hle := (List.subperm_of_subset hdistinct fun j hj =>
        List.mem_singleton.2 (hall j hj)).length_le
      rw [List.length_singleton] at hle
      omega
    exact result_of_cycle hc.flow hne ((hclasses c hcm i hi j).1 hj).2

/-- On a function in which verification finds nothing the pass ends and leaves a coherent one.
Wherever it stands and whatever candidate it starts from, a reduction and all that it calls come to
an end, and at every step each induction variable is defined by an instruction and has a header with
an immediate dominator. -/
theorem run_ends (hc : b.func.Coherent) (hverified : b.func.errors = .ok []) :
    ∃ t components, DominatorTree.ofFunc b.func = .ok t ∧ b.func.components t = .ok components ∧
      (∀ {s is rest}, Stage t b components s is rest → Anchored t s ∧ t.isCurrent s.func = true ∧
        ∀ {i inst iv rc}, s.flow.inst? i = some inst → candidate? t s inst = .ok (some (iv, rc)) →
          ∀ {first}, Call.Begins t iv rc first → ∀ {s' c}, Connects (Makes t inst.op)
            (s, first) (s', c) →
            Anchored t s' ∧ c.Settles t inst.op s' fun r => Anchored t r.2) ∧
      (run b).Succeeds True fun r =>
        r.2.func.Coherent ∧ ∃ s, Stage t b components s [] [] ∧ r = (s.modified, s.builder) := by
  obtain ⟨entry, hv⟩ := (Func.errors_eq_nil_iff hc).1 hverified
  obtain ⟨t, ht, hfaithful, hepoch⟩ := DominatorTree.ofFunc_ok hv.starts hv.shape.closed hc.bound
  obtain ⟨components, hcomponents, hlisted⟩ := listed_start hc ht
  have hstart := steady_start hc hv hfaithful hepoch
  refine ⟨t, components, ht, hcomponents, fun hs => ?_, ?_⟩
  · obtain ⟨hsteady, -⟩ := hs.steady hstart hlisted
    refine ⟨hsteady.anchored, hsteady.current,
      fun {i inst iv rc} hi hcandidate {first} hbegins {s' c} hcalls => ?_⟩
    obtain ⟨hop, w, -, hready⟩ := hsteady.ready hi hcandidate
    have hcalled := (hready hbegins).connects hsteady hop hcalls
    exact ⟨hcalled.steady.anchored, hcalled.settles hsteady hop⟩
  · unfold run
    refine (Run.succeeds_log fun _ => ⟨_, rfl⟩).bind fun _ _ => ?_
    rw [Func.isEmpty_of_entry hv.starts, if_neg Bool.false_ne_true]
    refine (Func.dominators_succeed ht).bind ?_
    rintro _ rfl
    refine (Run.succeeds_lift (P := (· = components)) ⟨_, hcomponents, rfl⟩).bind ?_
    rintro _ rfl
    refine (Run.succeeds_log fun _ => ⟨_, rfl⟩).bind fun _ _ => ?_
    refine (Stage.start.components hstart hlisted).bind fun s hs => Run.succeeds_pure ?_
    exact ⟨(hs.steady hstart hlisted).1.coherent, s, hs, rfl⟩

/-- A loop that returns four times its counter. -/
def scaling : Checked Builder :=
  Func.build "f" ⟨[.int 32, .int 1], some (.int 32)⟩
    [.block (some "entry"), .block (some "loop"), .block (some "exit"), .const (.int32 1),
    .const (.int32 4),
      .goTo (.append ⟨0⟩), .insert (.jump .br ⟨1⟩) .void,
      .goTo (.append ⟨1⟩), .insert (.phi .phi [⟨0⟩] [⟨0⟩]) (.int 32),
      .insert (.binary .mul ⟨4⟩ ⟨3⟩) (.int 32), .insert (.binary .add ⟨4⟩ ⟨2⟩) (.int 32),
      .edge ⟨1⟩ ⟨6⟩ ⟨1⟩, .insert (.branch .brCond ⟨1⟩ ⟨1⟩ ⟨2⟩) .void, .goTo (.append ⟨2⟩),
      .insert (.unary .retValue ⟨5⟩) .void]

theorem scaling_ends : ∃ b t components s, scaling = .ok b ∧ b.func.errors = .ok [] ∧
    Stage t b components s [] [] ∧ Anchored t s ∧ s.func.Coherent ∧ (run b).outcome = .ok
      (true, s.builder) := by
  obtain ⟨b, hb, h⟩ := exists_of_any (x := scaling) (p := fun b =>
    b.func.errors.toOption.any (·.isEmpty) && (run b).outcome.toOption.any (·.1))
    (by decide +kernel)
  rw [Bool.and_eq_true] at h
  have hverified := Func.verified_of_any h.1
  obtain ⟨t, components, -, -, hstages, hrun⟩ :=
    run_ends (Func.build_coherent (by decide) hb) hverified
  obtain ⟨_, hr, hcoherent, s, hs, rfl⟩ := hrun.outcome
  have hmodified : s.modified = true := by
    have hany := h.2
    rw [hr] at hany
    exact hany
  exact ⟨b, t, components, s, hb, hverified, hs, (hstages hs).1, hcoherent, hmodified ▸ hr⟩

end StrengthReduction

end MiddleEnd
