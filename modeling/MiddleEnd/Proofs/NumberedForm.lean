import MiddleEnd.Proofs.EdgeEdits
import MiddleEnd.Proofs.GlobalNumbering

/-!
# The form that value numbering leaves

When the rounds are over, no instruction folds, none computes what an instruction that dominates it
computes, and the phis of a block merge different things. There is nothing left to number then, and
another run changes nothing.
-/

namespace MiddleEnd

/-- An instruction stands before another in its block, or in a block that strictly dominates it. -/
inductive Func.Precedes (f : Func) : InstId → InstId → Prop where
  | within {b : BlockId} {pre post : List InstId} {i j : InstId} :
      f.Reachable b → f.insts b = .ok (pre ++ j :: post) →
      i ∈ pre → f.Precedes i j
  | above {d b : BlockId} {xs ys : List InstId} {i j : InstId} :
      f.StrictlyDominates d b → f.insts d = .ok xs → i ∈ xs →
      f.insts b = .ok ys → j ∈ ys → f.Precedes i j

namespace ValueNumbering

variable {b : Builder} {entry c d : BlockId} {t : DominatorTree} {a a' a'' : Available}
  {i j : InstId} {inst jnst : Inst}

theorem Fresh.subset {insts : List InstId} (h : Fresh b a insts a') : a ⊆ a' := by
  induction h with
  | nil => exact List.Subset.refl _
  | skip _ _ _ ih => exact ih
  | offer _ _ _ _ _ _ _ ih => exact fun x hx => ih (List.mem_cons_of_mem _ hx)

theorem Fresh.split {pre post : List InstId} (h : Fresh b a (pre ++ post) a'') :
    ∃ a', Fresh b a pre a' ∧ Fresh b a' post a'' := by
  induction pre generalizing a with
  | nil => exact ⟨a, .nil, h⟩
  | cons i pre ih =>
    cases h with
    | skip hi hpure hrest =>
      obtain ⟨a', hpre, hpost⟩ := ih hrest
      exact ⟨a', .skip hi hpure hpre, hpost⟩
    | offer hi hpure hfold he hnew hr hrest =>
      obtain ⟨a', hpre, hpost⟩ := ih hrest
      exact ⟨a', .offer hi hpure hfold he hnew hr hpre, hpost⟩

theorem Fresh.pure {insts : List InstId} (h : Fresh b a insts a') (hmem : i ∈ insts)
    (hi : b.flow.inst? i = some inst) (hpure : inst.op.isPure = true) :
    b.flow.fold? i = .ok none ∧ ∃ e r, Expr.of b.flow i = .ok e ∧ (∀ v, (e, v) ∉ a) ∧
    (e, r) ∈ a' := by
  obtain ⟨pre, post, rfl⟩ := List.append_of_mem hmem
  obtain ⟨a₁, hpre, hpost⟩ := h.split
  cases hpost with
  | skip hi' hplain _ =>
    cases hi.symm.trans (DataFlow.inst_eq_ok.1 hi')
    rw [hpure] at hplain
    cases hplain
  | @offer _ _ _ _ _ e r _ _ hfold he hnew _ hrest =>
    refine ⟨hfold, e, r, he, fun v hv => ?_, hrest.subset List.mem_cons_self⟩
    simpa using List.lookup_eq_none_iff.1 hnew (e, v) (hpre.subset hv)

theorem Walked.down (ht : t.Faithful b.func entry) (h : Walked b t a c)
    (hg : Guards b.func.Leads entry c d) :
    ∃ a', a ⊆ a' ∧ Walked b t a' d := by
  induction h with
  | @block a a₁ c phis insts cs hphis hapart hinsts hfresh hcs hbelow ih =>
    rcases (ht.guards_iff hg.connects).1 hg with rfl | ⟨e, he, hge⟩
    · exact ⟨a, List.Subset.refl _, .block hphis hapart hinsts hfresh hcs hbelow⟩
    · obtain ⟨cs', hcs', -, hmem⟩ := ht.children hg.connects
      cases hcs.symm.trans hcs'
      obtain ⟨a', hsub, hwalked⟩ := ih e ((hmem e).2 he) hge
      exact ⟨a', fun x hx => hsub (hfresh.subset hx), hwalked⟩

theorem Walked.children (ht : t.Faithful b.func entry) (h : Walked b t a c) (hne : c ≠ d)
    (hg : Guards b.func.Leads entry c d) {xs : List InstId} (hxs : b.func.insts c = .ok xs) :
    ∃ a₁ a₂, Fresh b a (xs.filter (!b.flow.isPhi ·)) a₁ ∧ a₁ ⊆ a₂ ∧ Walked b t a₂ d := by
  cases h with
  | @block _ a₁ _ phis insts cs _ _ hinsts hfresh hcs hbelow =>
    cases hxs.symm.trans hinsts
    obtain ⟨e, he, hge⟩ := ((ht.guards_iff hg.connects).1 hg).resolve_left (Ne.symm hne)
    obtain ⟨cs', hcs', -, hmem⟩ := ht.children hg.connects
    cases hcs.symm.trans hcs'
    obtain ⟨a₂, hsub, hwalked⟩ := (hbelow e ((hmem e).2 he)).down ht hge
    exact ⟨a₁, a₂, hfresh, hsub, hwalked⟩

theorem Walked.insts (h : Walked b t a c) {xs : List InstId} (hxs : b.func.insts c = .ok xs) :
    ∃ a', Fresh b a (xs.filter (!b.flow.isPhi ·)) a' := by
  cases h with
  | block _ _ hinsts hfresh _ _ =>
    cases hxs.symm.trans hinsts
    exact ⟨_, hfresh⟩

theorem Walked.phis (h : Walked b t a c) {phis : List InstId} (hphis : b.func.phis c = .ok phis) :
    PhisApart b t [] phis := by
  cases h with
  | block hphis' hapart _ _ _ _ =>
    cases hphis.symm.trans hphis'
    exact hapart

theorem mem_plain {xs : List InstId} (hmem : i ∈ xs) (hi : b.flow.inst? i = some inst)
    (hpure : inst.op.isPure = true) :
    i ∈ xs.filter (!b.flow.isPhi ·) := by
  refine List.mem_filter.2 ⟨hmem, ?_⟩
  rw [DataFlow.isPhi_of_inst hi]
  revert hpure
  cases inst.op <;> decide

theorem Walked.distinct (he : b.func.entry = .ok entry) (ht : t.Faithful b.func entry)
    (h : Walked b t [] entry) (hij : b.func.Precedes i j) (hi : b.flow.inst? i = some inst)
    (hj : b.flow.inst? j = some jnst) (hpure : inst.op.isPure = true)
    (hpure' : jnst.op.isPure = true) :
    ∃ e e', Expr.of b.flow i = .ok e ∧ Expr.of b.flow j = .ok e' ∧ e ≠ e' := by
  cases hij with
  | @within c pre post _ _ hc hxs hmem =>
    obtain ⟨a, -, hwalked⟩ := h.down ht ((Func.reachable_iff he).1 hc).guards_root
    obtain ⟨a', hfresh⟩ := hwalked.insts hxs
    rw [List.filter_append] at hfresh
    obtain ⟨a₁, hpre, hpost⟩ := hfresh.split
    obtain ⟨-, e, r, hei, -, hoffered⟩ := hpre.pure (mem_plain hmem hi hpure) hi hpure
    obtain ⟨-, e', r', hej, hnew, -⟩ :=
      hpost.pure (mem_plain List.mem_cons_self hj hpure') hj hpure'
    exact ⟨e, e', hei, hej, fun heq => hnew r (heq ▸ hoffered)⟩
  | @above d c xs ys _ _ hd hxs hmem hys hmem' =>
    obtain ⟨hne, hg⟩ := hd
    rw [Func.dominates_iff he] at hg
    obtain ⟨a, -, hwalked⟩ := h.down ht hg.connects.guards_root
    obtain ⟨a₁, a₂, hfresh, hsub, hwalked'⟩ := hwalked.children ht hne hg hxs
    obtain ⟨a', hfresh'⟩ := hwalked'.insts hys
    obtain ⟨-, e, r, hei, -, hoffered⟩ := hfresh.pure (mem_plain hmem hi hpure) hi hpure
    obtain ⟨-, e', r', hej, hnew, -⟩ := hfresh'.pure (mem_plain hmem' hj hpure') hj hpure'
    exact ⟨e, e', hei, hej, fun heq => hnew r (hsub (heq ▸ hoffered))⟩

theorem edgeOrder_iff {x y : BlockId × ValueId} :
    State.edgeOrder x y = true ↔ x.1.index < y.1.index ∨ x.1.index = y.1.index ∧
    x.2.index ≤ y.2.index := by
  simp [State.edgeOrder]

theorem edgeOrder_antisymm {x y : BlockId × ValueId} (h : State.edgeOrder x y = true)
    (h' : State.edgeOrder y x = true) :
    x = y := by
  obtain ⟨⟨p⟩, ⟨v⟩⟩ := x
  obtain ⟨⟨q⟩, ⟨w⟩⟩ := y
  rw [edgeOrder_iff] at h h'
  simp only at h h'
  have hp : p = q := by omega
  have hv : v = w := by omega
  rw [hp, hv]

theorem phiEdges_pairwise (s : State) (inst : Inst) :
    (s.phiEdges t inst).Pairwise fun x y => State.edgeOrder x y = true := by
  refine List.pairwise_mergeSort (fun x y z hxy hyz => ?_) (fun x y => ?_) _
  · rw [edgeOrder_iff] at hxy hyz ⊢
    omega
  · rw [Bool.or_eq_true, edgeOrder_iff, edgeOrder_iff]
    omega

theorem phiEdges_eq {s : State} (hn : (s.phiEdges t inst).Nodup) (hn' : (s.phiEdges t jnst).Nodup)
    (h : ∀ x, x ∈ s.phiEdges t inst ↔ x ∈ s.phiEdges t jnst) :
    s.phiEdges t inst = s.phiEdges t jnst :=
  ((List.perm_ext_iff_of_nodup hn hn').2 h).eq_of_pairwise (fun _ _ _ _ => edgeOrder_antisymm)
    (phiEdges_pairwise s inst) (phiEdges_pairwise s jnst)

theorem phiEdges_nodup {s : State} (heven : inst.edges.map (·.2) = inst.blocks)
    (hn : inst.blocks.Nodup) :
    (s.phiEdges t inst).Nodup := by
  refine (List.mergeSort_perm _ _).nodup_iff.2 ?_
  refine List.Pairwise.of_map (S := (· ≠ ·)) Prod.fst (fun x y hne he =>
    hne (congrArg Prod.fst he)) ?_
  rw [List.map_map]
  exact (heven ▸ hn : (inst.edges.map (·.2)).Nodup).sublist (List.filter_sublist.map _)

theorem PhisApart.phi {seen : List (List (BlockId × ValueId) × ValueId)} {phis : List InstId}
    {phi : InstId} (h : PhisApart b t seen phis) (hmem : phi ∈ phis) :
    ∃ r inst, b.flow.result? phi = some r ∧
      b.flow.inst? phi = some inst ∧
      ∀ v, (((State.phiEdges { builder := b } t inst).map (·.2)).filter (· ≠ r)).eraseDups ≠
        [v] := by
  induction h with
  | nil => cases hmem
  | cons hr hi hone _ _ ih =>
    rcases List.mem_cons.1 hmem with rfl | hmem
    · exact ⟨_, _, DataFlow.result_eq_ok.1 hr, DataFlow.inst_eq_ok.1 hi, hone⟩
    · exact ih hmem

theorem PhisApart.unseen {seen : List (List (BlockId × ValueId) × ValueId)} {phis : List InstId}
    {phi : InstId} (h : PhisApart b t seen phis) (hmem : phi ∈ phis)
    (hi : b.flow.inst? phi = some inst) :
    ∀ r, (State.phiEdges { builder := b } t inst, r) ∉ seen := by
  induction h with
  | nil => cases hmem
  | cons _ hi' _ hnew _ ih =>
    intro r hr
    rcases List.mem_cons.1 hmem with rfl | hmem
    · cases hi.symm.trans (DataFlow.inst_eq_ok.1 hi')
      simpa using List.lookup_eq_none_iff.1 hnew _ hr
    · exact ih hmem r (List.mem_cons_of_mem _ hr)

theorem PhisApart.apart {seen : List (List (BlockId × ValueId) × ValueId)} {pre post : List InstId}
    {phi psi : InstId} (h : PhisApart b t seen (pre ++ psi :: post)) (hmem : phi ∈ pre)
    (hi : b.flow.inst? phi = some inst) (hj : b.flow.inst? psi = some jnst) :
    State.phiEdges { builder := b } t inst ≠ State.phiEdges { builder := b } t jnst := by
  induction pre generalizing seen with
  | nil => cases hmem
  | cons x pre ih =>
    cases h with
    | cons _ hi' _ _ hrest =>
      rcases List.mem_cons.1 hmem with rfl | hmem
      · cases hi.symm.trans (DataFlow.inst_eq_ok.1 hi')
        intro he
        rw [he] at hrest
        exact hrest.unseen (List.mem_append_right _ List.mem_cons_self) hj _ List.mem_cons_self
      · exact ih hrest hmem

/-- No instruction folds, none computes what one before it computes, and the phis of a block merge
different values, no two of them the same. -/
structure Normal (f : Func) : Prop where
  unfolded : ∀ {b xs i inst}, f.Reachable b → f.insts b = .ok xs → i ∈ xs →
    f.flow.inst? i = some inst →
    inst.op.isPure = true → f.flow.fold? i = .ok none
  distinct : ∀ {i j inst jnst}, f.Precedes i j → f.flow.inst? i = some inst →
    f.flow.inst? j = some jnst →
    inst.op.isPure = true → jnst.op.isPure = true →
    ∃ e e', Expr.of f.flow i = .ok e ∧ Expr.of f.flow j = .ok e' ∧ e ≠ e'
  apart : ∀ {b pre post phi psi}, f.Reachable b → f.phis b = .ok (pre ++ psi :: post) → phi ∈ pre →
    ∃ p v w, f.Reachable p ∧ f.Leads p b ∧ f.flow.incoming? phi p = .ok (some v) ∧
      f.flow.incoming? psi p = .ok (some w) ∧ v ≠ w
  merging : ∀ {b phis phi}, f.Reachable b → f.phis b = .ok phis → phi ∈ phis →
    ∃ r p q v w, f.flow.result? phi = some r ∧ f.Reachable p ∧ f.Reachable q ∧
    f.flow.incoming? phi p = .ok (some v) ∧
      f.flow.incoming? phi q = .ok (some w) ∧ v ≠ w ∧ v ≠ r ∧ w ≠ r

theorem Ready.phi {f : Func} (h : Ready f entry) {phis : List InstId} {phi : InstId}
    (hphis : f.phis c = .ok phis) (hmem : phi ∈ phis) (hi : f.flow.inst? phi = some inst) :
    ∃ xs, f.insts c = .ok xs ∧ phi ∈ xs.takeWhile f.flow.isPhi ∧
      inst.op.isPhi = true ∧ inst.blocks.Nodup ∧ inst.edges.map (·.2) = inst.blocks ∧
      ∀ {p}, (∃ v, (v, p) ∈ inst.edges) ↔ f.Leads p c := by
  obtain ⟨xs, hxs, he⟩ := bind_eq_ok.1 hphis
  cases he
  have hisphi : f.flow.isPhi phi = true := List.all_eq_true.1 List.all_takeWhile phi hmem
  have hop : inst.op.isPhi = true := (DataFlow.isPhi_of_inst hi).symm.trans hisphi
  have hin := (List.takeWhile_prefix _).subset hmem
  obtain ⟨hn, hpreds⟩ := h.regular.shape.phi_edges hxs hin hisphi hi
  refine ⟨xs, hxs, hmem, hop, hn, ?_, fun {p} => ⟨?_, ?_⟩⟩
  · obtain ⟨args, preds, rfl⟩ := Verify.phi_of_form (h.regular.forms hi) hop
    exact (h.regular.coherent.flow.even hi).blocks ⟨_, _, _, rfl⟩
  · rintro ⟨v, hv⟩
    exact (hpreds p).1 (Inst.block_of_edge hv)
  · exact h.regular.shape.edge_of_leads h.regular.coherent hxs hin hi (h.regular.forms hi) hop

theorem Ready.phi_merges {f : Func} (h : Ready f entry) (hc : Connects f.Leads entry c)
    {phis : List InstId} {phi : InstId} {r : ValueId} (hphis : f.phis c = .ok phis)
    (hmem : phi ∈ phis) (hi : f.flow.inst? phi = some inst) (hr : f.flow.result? phi = some r) :
    ∃ v p, (v, p) ∈ inst.edges ∧ Connects f.Leads entry p ∧ v ≠ r := by
  refine Classical.byContradiction fun hn => ?_
  obtain ⟨xs, hxs, hhead, hop, -, -, hedges⟩ := h.phi hphis hmem hi
  have hin : phi ∈ xs := (List.takeWhile_prefix _).subset hhead
  obtain ⟨ty, ho, -⟩ := h.regular.coherent.flow.result_origin hr
  refine (h.regular.toFormed.single_guards hxs hhead hr hc (fun {p} hp hl => .inl ?_) ho
    hxs hin).1 rfl
  obtain ⟨v, hv⟩ := hedges.2 hl
  have hvr : v = r := Classical.byContradiction fun hne => hn ⟨v, p, hv, hp, hne⟩
  subst hvr
  refine (h.dominated.phis hc hxs hin hi hop hv hp).resolve_right ?_
  rintro ⟨ty', j, home, ys, ho', hys, hj, hnot⟩
  rw [ho] at ho'
  cases ho'
  exact hnot (h.regular.coherent.layout.one_block hxs hys hin hj ▸ hc)

theorem Exhausted.normal (h : Exhausted b entry) : Normal b.func := by
  obtain ⟨t, ht, hwalked⟩ := h.walked
  have he := h.ready.regular.starts
  have hin : ∀ {c}, b.func.Reachable c → Connects b.func.Leads entry c := (Func.reachable_iff he).1
  have hout : ∀ {c}, Connects b.func.Leads entry c → b.func.Reachable c := (Func.reachable_iff he).2
  have hmem : ∀ {p y inst}, (p, y) ∈ State.phiEdges { builder := b } t inst ↔
      (y, p) ∈ inst.edges ∧ Connects b.func.Leads entry p := fun {p y inst} => by
    rw [mem_phiEdges, ht.isReachable_iff]
    constructor
    · rintro ⟨x, hx, hp, rfl⟩
      exact ⟨hx, hp⟩
    · rintro ⟨hx, hp⟩
      exact ⟨y, hx, hp, rfl⟩
  refine ⟨?_, ?_, ?_, ?_⟩
  · intro c xs i inst hc hxs hi hinst hpure
    obtain ⟨a, -, hw⟩ := hwalked.down ht (hin hc).guards_root
    obtain ⟨a', hfresh⟩ := hw.insts hxs
    exact (hfresh.pure (mem_plain hi hinst hpure) hinst hpure).1
  · intro i j inst jnst hij hi hj hpure hpure'
    exact hwalked.distinct he ht hij hi hj hpure hpure'
  · intro c pre post phi psi hc hphis hphi
    obtain ⟨a, -, hw⟩ := hwalked.down ht (hin hc).guards_root
    have hall := hw.phis hphis
    obtain ⟨-, inst, -, hi, -⟩ := hall.phi (List.mem_append_left _ hphi)
    obtain ⟨-, jnst, -, hj, -⟩ := hall.phi (List.mem_append_right _ List.mem_cons_self)
    obtain ⟨-, -, -, -, hn, heven, hedges⟩ := h.ready.phi hphis (List.mem_append_left _ hphi) hi
    obtain ⟨-, -, -, -, hn', heven', hedges'⟩ :=
      h.ready.phi hphis (List.mem_append_right _ List.mem_cons_self) hj
    refine Classical.byContradiction fun hsame => hall.apart hphi hi hj ?_
    -- An edge of one phi that the other one does not have tells them apart.
    have hagree : ∀ {p v w}, (v, p) ∈ inst.edges → (w, p) ∈ jnst.edges →
        Connects b.func.Leads entry p → v = w :=
      fun {p v w} hv hw hp => Classical.byContradiction fun hne => hsame ⟨p, v, w, hout hp,
        hedges.1 ⟨v, hv⟩, DataFlow.incoming?_of_edge hi hn hv,
        DataFlow.incoming?_of_edge hj hn' hw, hne⟩
    refine phiEdges_eq (phiEdges_nodup heven hn) (phiEdges_nodup heven' hn') fun x => ?_
    obtain ⟨p, y⟩ := x
    rw [hmem, hmem]
    refine and_congr_left fun hp => ⟨fun hy => ?_, fun hy => ?_⟩
    · obtain ⟨w, hw⟩ := hedges'.2 (hedges.1 ⟨y, hy⟩)
      exact hagree hy hw hp ▸ hw
    · obtain ⟨v, hv⟩ := hedges.2 (hedges'.1 ⟨y, hy⟩)
      exact hagree hv hy hp ▸ hv
  · intro c phis phi hc hphis hphi
    obtain ⟨a, -, hw⟩ := hwalked.down ht (hin hc).guards_root
    obtain ⟨r, inst, hr, hi, hone⟩ := (hw.phis hphis).phi hphi
    obtain ⟨-, -, -, -, hn, -, -⟩ := h.ready.phi hphis hphi hi
    have hpart : ∀ {v}, v ∈ ((State.phiEdges { builder := b } t inst).map (·.2)).filter (· ≠ r) ↔
        (∃ p, (v, p) ∈ inst.edges ∧ Connects b.func.Leads entry p) ∧ v ≠ r := fun {v} => by
      simp only [List.mem_filter, List.mem_map, Prod.exists, exists_eq_right, hmem,
        decide_eq_true_eq]
    obtain ⟨v, p, hv, hp, hvr⟩ := h.ready.phi_merges (hin hc) hphis hphi hi hr
    have hsome : (((State.phiEdges { builder := b } t inst).map (·.2)).filter (· ≠ r)).eraseDups ≠
        [] := fun hnil =>
      List.not_mem_nil (hnil ▸ List.mem_eraseDups.2 (hpart.2 ⟨⟨p, hv, hp⟩, hvr⟩))
    obtain ⟨v, hv, w, hw, hne⟩ := exists_ne_of_eraseDups hsome hone
    obtain ⟨⟨p, hv, hp⟩, hvr⟩ := hpart.1 hv
    obtain ⟨⟨q, hw, hq⟩, hwr⟩ := hpart.1 hw
    exact ⟨r, p, q, v, w, hr, hout hp, hout hq, DataFlow.incoming?_of_edge hi hn hv,
      DataFlow.incoming?_of_edge hi hn hw, hne, hvr, hwr⟩

theorem Exhausted.verified (h : Exhausted b entry) : b.func.errors = .ok [] :=
  (Func.errors_eq_nil_iff h.ready.regular.coherent).2 ⟨entry, h.ready.regular.starts,
    h.ready.regular.shape,
    fun hi => ⟨h.ready.regular.forms hi, h.ready.typed hi⟩, h.ready.dominated⟩

theorem Exhausted.run_again (h : Exhausted b entry) : (run b).outcome = .ok (false, b) := by
  rw [run_eq h.ready.regular.starts]
  unfold Run.info
  rw [Run.outcome_log_bind]
  exact h.again _ _

/-- Value numbering of a clean function without integers of width 0 comes to an end, at a function
in normal form that another run leaves as it is, exactly if every phi of a reachable block yields a
value. -/
theorem run_normal_iff (h : b.func.Clean entry) (hwide : ∀ v, b.flow.ty v ≠ .ok (.int 0)) :
    (∃ modified b', (run b).outcome = .ok (modified, b') ∧ b'.func.errors = .ok [] ∧
      Normal b'.func ∧
        (run b').outcome = .ok (false, b')) ↔
      ∀ c phis, b.func.Reachable c → b.func.phis c = .ok phis →
        ∀ i ∈ phis, ∃ r, b.flow.result? i = some r := by
  have hready := Ready.of_clean h hwide
  refine Iff.trans ?_ (phisYield_entry_iff h.starts)
  constructor
  · rintro ⟨modified, b', hb', -⟩
    refine Classical.byContradiction fun hn => ?_
    obtain ⟨e, he⟩ := (run_fails hready hn).outcome
    rw [hb'] at he
    cases he
  · intro hy
    obtain ⟨modified, b', hb', -, hdone⟩ := run_ok hready hy
    exact ⟨modified, b', hb', hdone.verified, hdone.normal, hdone.run_again⟩

theorem sameTwice_normal :
    ∃ b modified b', sameTwice = .ok b ∧ (run b).outcome = .ok (modified, b') ∧ b'.func.errors = .ok
      [] ∧ Normal b'.func ∧ (run b').outcome = .ok (false, b') := by
  obtain ⟨b, entry, hb, hclean, hwide, hphis⟩ := sameTwice_ok
  obtain ⟨modified, b', hrun, hnormal⟩ := (run_normal_iff hclean hwide).2 hphis
  exact ⟨b, modified, b', hb, hrun, hnormal⟩

/-- No function in normal form comes of a phi of type `void`. -/
theorem voidPhi_not_normal :
    ∃ b entry, voidPhi = .ok b ∧ b.func.Clean entry ∧ b.func.predecessors entry = [] ∧
      (∀ v, b.flow.ty v ≠ .ok (.int 0)) ∧ ∀ r, (run b).outcome ≠ .ok r := by
  obtain ⟨b, entry, hb, hclean, hpreds, hwide, -, hrun⟩ := voidPhi_ok
  refine ⟨b, entry, hb, hclean, hpreds, hwide, fun r hr => ?_⟩
  rw [hr] at hrun
  cases hrun

end ValueNumbering

end MiddleEnd
