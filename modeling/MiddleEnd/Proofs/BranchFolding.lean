import MiddleEnd.Proofs.Pruning
import MiddleEnd.Transform.FlowSimplification
import Mathlib.Algebra.Order.BigOperators.Group.Finset

/-!
# Branches that always go one way

A branch on a constant, or with one target for both outcomes, may be a jump. Every edit of
simplification makes a function smaller: it loses blocks or instructions, or a branch becomes a
jump, which weighs less.
-/

namespace MiddleEnd

def Opcode.weight (op : Opcode) : Nat := if op = .brCond then 2 else 1

namespace DataFlow

def ids (g : DataFlow) : Finset InstId := (g.insts.toList.map (·.1)).toFinset

def weightAt (g : DataFlow) (i : InstId) : Nat := ((g.op? i).map Opcode.weight).getD 0

def weight (g : DataFlow) : Nat := ∑ i ∈ g.ids, g.weightAt i

variable {g g' : DataFlow} {i : InstId} {inst : Inst}

theorem mem_ids : i ∈ g.ids ↔ ∃ op, g.op? i = some op := by
  unfold ids op? inst?
  rw [List.mem_toFinset, List.mem_map]
  constructor
  · rintro ⟨⟨j, e⟩, he, rfl⟩
    exact ⟨e.inst.op, by rw [Table.mem_toList.1 he]; rfl⟩
  · rintro ⟨op, hop⟩
    cases he : g.insts.get? i with
    | none =>
      rw [he] at hop
      cases hop
    | some e => exact ⟨(i, e), Table.mem_toList.2 he, rfl⟩

theorem weightAt_of_op {op : Opcode} (h : g.op? i = some op) : g.weightAt i = op.weight := by
  rw [weightAt, h]
  rfl

theorem weightAt_congr (h : g'.op? i = g.op? i) : g'.weightAt i = g.weightAt i := by
  rw [weightAt, weightAt, h]

theorem weightAt_le (g : DataFlow) (i : InstId) : g.weightAt i ≤ 2 := by
  unfold weightAt
  cases g.op? i with
  | none => exact Nat.zero_le 2
  | some op =>
    simp only [Option.map_some, Option.getD_some, Opcode.weight]
    split <;> decide

theorem weight_le (g : DataFlow) : g.weight ≤ 2 * g.insts.size :=
  calc g.weight ≤ ∑ _i ∈ g.ids, 2 := Finset.sum_le_sum fun i _ => g.weightAt_le i
    _ = g.ids.card * 2 := Finset.sum_const_nat fun _ _ => rfl
    _ ≤ g.insts.size * 2 := by
      refine Nat.mul_le_mul_right 2 ((List.toFinset_card_le _).trans ?_)
      rw [List.length_map]
      exact Nat.le_refl _
    _ = 2 * g.insts.size := Nat.mul_comm _ _

theorem weight_mono (h : ∀ {i op}, g'.op? i = some op → g.op? i = some op) :
    g'.weight ≤ g.weight := by
  have hsub : g'.ids ⊆ g.ids := fun i hi => by
    obtain ⟨op, hop⟩ := mem_ids.1 hi
    exact mem_ids.2 ⟨op, h hop⟩
  calc g'.weight = ∑ i ∈ g'.ids, g.weightAt i := Finset.sum_congr rfl fun i hi => by
        obtain ⟨op, hop⟩ := mem_ids.1 hi
        exact weightAt_congr (hop.trans (h hop).symm)
    _ ≤ g.weight := Finset.sum_le_sum_of_subset hsub

theorem weight_congr (h : ∀ i, g'.op? i = g.op? i) : g'.weight = g.weight :=
  Nat.le_antisymm (weight_mono fun {i op} hop => by rw [← h i, hop]) (weight_mono fun {i op} hop =>
    by rw [h i, hop])

theorem Grown.weight {ty : Ty} {v? : Option ValueId} (h : Grown g g' i inst ty v?) :
    g'.weight = g.weight + inst.op.weight := by
  have hop : ∀ j, g'.op? j = if j = i then some inst.op else g.op? j := fun j => by
    unfold op?
    rw [h.inst?]
    split <;> rfl
  have hnew : i ∉ g.ids := fun hi => by
    obtain ⟨op, hop⟩ := mem_ids.1 hi
    rw [op?, h.fresh] at hop
    cases hop
  have hids : g'.ids = insert i g.ids := by
    ext j
    rw [Finset.mem_insert, mem_ids, mem_ids, hop j]
    split
    · rename_i hji
      exact ⟨fun _ => .inl hji, fun _ => ⟨_, rfl⟩⟩
    · rename_i hji
      exact ⟨.inr, fun hj => hj.resolve_left hji⟩
  unfold DataFlow.weight
  rw [hids, Finset.sum_insert hnew, weightAt_of_op ((hop i).trans (if_pos rfl)), Nat.add_comm]
  refine congrArg (· + inst.op.weight) (Finset.sum_congr rfl fun j hj =>
    weightAt_congr ((hop j).trans (if_neg ?_)))
  rintro rfl
  exact hnew hj

theorem Shrunk.weight (h : Shrunk g g' i) (hi : g.inst? i = some inst) :
    g'.weight + inst.op.weight = g.weight := by
  have hop : ∀ j, g'.op? j = if j = i then none else g.op? j := fun j => by
    unfold op?
    rw [h.inst?]
    split <;> rfl
  have hmem : i ∈ g.ids := mem_ids.2 ⟨_, op?_eq_some hi⟩
  have hids : g'.ids = g.ids.erase i := by
    ext j
    rw [Finset.mem_erase, mem_ids, mem_ids, hop j]
    split
    · rename_i hji
      exact ⟨fun hj => (by cases hj.choose_spec), fun hj => absurd hji hj.1⟩
    · rename_i hji
      exact ⟨fun hj => ⟨hji, hj⟩, And.right⟩
  have hrest : ∑ j ∈ g.ids.erase i, g'.weightAt j = ∑ j ∈ g.ids.erase i, g.weightAt j :=
    Finset.sum_congr rfl fun j hj =>
      weightAt_congr ((hop j).trans (if_neg (Finset.mem_erase.1 hj).1))
  unfold DataFlow.weight
  rw [hids, hrest, ← weightAt_of_op (op?_eq_some hi), Finset.sum_erase_add _ _ hmem]

theorem Rewired.weight {ρ : InstId → Inst → Inst} (h : Rewired g g' ρ)
    (hop : ∀ {i inst}, g.inst? i = some inst → (ρ i inst).op = inst.op) : g'.weight = g.weight := by
  refine weight_congr fun i => ?_
  unfold op?
  rw [h.inst?]
  cases hi : g.inst? i with
  | none => rfl
  | some inst => exact congrArg some (hop hi)

end DataFlow

def Func.extent (f : Func) : Nat := f.blocks.length + f.flow.weight

/-- The second builder's function is a simpler one. It is smaller if it was modified, and the same
otherwise. Of a function without copies it keeps what is returned. -/
structure Builder.Eased (b b' : Builder) (entry : BlockId) (modified : Bool) : Prop where
  neat : b'.func.Neat entry
  tidy : b.func.Tidy entry → b'.func.Tidy entry
  returns : b.func.Tidy entry → ∀ {args d}, b.func.Returns args d → b'.func.Returns args d
  extent : b'.func.extent + modified.toNat ≤ b.func.extent
  same : modified = false → b' = b

namespace Builder.Eased

variable {b b' b'' : Builder} {entry : BlockId} {m m' : Bool}

theorem refl (h : b.func.Neat entry) : b.Eased b entry false :=
  ⟨h, id, fun _ _ _ => id, Nat.le_refl _, fun _ => rfl⟩

theorem trans (h : b.Eased b' entry m) (h' : b'.Eased b'' entry m') :
    b.Eased b'' entry (m || m') where
  neat := h'.neat
  tidy ht := h'.tidy (h.tidy ht)
  returns ht _ _ hd := h'.returns (h.tidy ht) (h.returns ht hd)
  extent := by
    have h₁ := h.extent
    have h₂ := h'.extent
    cases m <;> cases m' <;> simp at h₁ h₂ ⊢ <;> omega
  same hm := by
    obtain ⟨hm, hm'⟩ := Bool.or_eq_false_iff.1 hm
    rw [h'.same hm', h.same hm]

theorem step (h : b.Eased b' entry m) (h' : b'.Eased b'' entry true) : b.Eased b'' entry true := by
  rw [← Bool.or_true m]
  exact h.trans h'

end Builder.Eased

namespace Func

/-- A branch names `taken` and the other block, if there is one. -/
structure Parts (inst : Inst) (taken : BlockId) (dropped? : Option BlockId) : Prop where
  blocks : ∀ c, c ∈ inst.blocks ↔ c = taken ∨ dropped? = some c
  ne : dropped? ≠ some taken

/-- Jump `j` stands in the place of `term` at the end of `block`. -/
structure Jumps (f f' : Func) (block : BlockId) (front : List InstId) (term j : InstId)
    (taken : BlockId) : Prop where
  coherent : f'.Coherent
  alike : Alike f f'
  fresh : f.flow.inst? j = none
  here : f'.insts block = .ok (front ++ [j])
  others : ∀ {d}, d ≠ block → f'.insts d = f.insts d
  jump : f'.flow.inst? j = some (.jump .br taken)
  mute : f'.flow.result? j = none
  inst? : ∀ {i}, i ≠ j → i ≠ term → f'.flow.inst? i = f.flow.inst? i
  result? : ∀ {i}, i ≠ j → i ≠ term → f'.flow.result? i = f.flow.result? i
  origin? : ∀ v, f'.flow.origin? v = f.flow.origin? v
  params : f'.flow.params = f.flow.params
  imports : f'.flow.imports = f.flow.imports

end Func

theorem Builder.jump_ok {b : Builder} (h : b.func.Coherent) {block : BlockId} {front : List InstId}
    {term : InstId} {inst : Inst} (taken : BlockId)
    (hxs : b.func.insts block = .ok (front ++ [term])) (hi : b.flow.inst? term = some inst)
    (hr : b.flow.result? term = none) :
    ∃ j b₁ b', (b.goTo (.before term)).br none taken = .ok (j, b₁) ∧ b₁.removeInst term = .ok b' ∧
      b.func.Jumps b'.func block front term j taken ∧ b'.flow.weight + inst.op.weight =
        b.flow.weight + 1 := by
  have hargs : ∀ v ∈ (Inst.jump .br taken).args,
      ∃ o, (b.goTo (.before term)).flow.origin? v = some o :=
    fun v hv => by cases hv
  obtain ⟨j, b₁, v?, hins, hc₁, hin, -⟩ :=
    Builder.insert_ok (b := b.goTo (.before term)) h .void hargs (fun _ _ _ he => by cases he) hxs
      (.before term block front [])
  have hv : v? = none := hin.grown.yields.2 rfl
  subst hv
  have hne : term ≠ j := by
    rintro rfl
    have := hin.grown.fresh
    rw [show (b.goTo (.before term)).func.flow.inst? term = some inst from hi] at this
    cases this
  have hi₁ : b₁.flow.inst? term = some inst := by
    rw [Builder.flow, hin.grown.inst?, if_neg hne]
    exact hi
  have hr₁ : b₁.flow.result? term = none := by
    rw [Builder.flow, hin.grown.result?, if_neg hne]
    exact hr
  obtain ⟨b', hrem, hc', hs, halike, hl⟩ := Builder.removeInst_ok hc₁ hi₁ fun v hv => by
    rw [hr₁] at hv
    cases hv
  have hbr : (b.goTo (.before term)).br none taken = .ok (j, b₁) := by
    unfold Builder.br Builder.emit
    rw [hins, ok_bind]
  have hnodup := h.layout.insts_nodup hxs
  refine ⟨j, b₁, b', hbr, hrem, ⟨hc', hin.alike.trans halike, hin.grown.fresh, ?_, ?_, ?_, ?_, ?_,
    ?_, ?_, ?_, ?_⟩, ?_⟩
  · rw [hl, hin.here, map_ok, List.filter_append, List.filter_cons_of_pos (by simpa using hne.symm),
      List.filter_cons_of_neg (by simp), List.filter_nil, List.filter_eq_self.2 fun i hi' => ?_]
    rw [decide_eq_true_eq]
    rintro rfl
    exact (List.nodup_append.1 hnodup).2.2 i hi' i List.mem_cons_self rfl
  · intro d hd
    rw [hl, hin.others hd]
    cases hys : b.func.insts d with
    | error e =>
      rw [show (b.goTo (.before term)).func.insts d = .error e from hys]
      rfl
    | ok ys =>
      rw [show (b.goTo (.before term)).func.insts d = .ok ys from hys, map_ok,
        List.filter_eq_self.2 fun i hi' => ?_]
      rw [decide_eq_true_eq]
      rintro rfl
      exact hd (h.layout.one_block hys hxs hi' (List.mem_append_right _ List.mem_cons_self))
  · show b'.flow.inst? j = _
    rw [hs.inst?, if_neg hne.symm, Builder.flow, hin.grown.inst?, if_pos rfl]
  · show b'.flow.result? j = _
    rw [hs.result?, if_neg hne.symm, Builder.flow, hin.grown.result?, if_pos rfl]
  · intro i hj ht
    show b'.flow.inst? i = _
    rw [hs.inst?, if_neg ht, Builder.flow, hin.grown.inst?, if_neg hj]
    rfl
  · intro i hj ht
    show b'.flow.result? i = _
    rw [hs.result?, if_neg ht, Builder.flow, hin.grown.result?, if_neg hj]
    rfl
  · intro v
    show b'.flow.origin? v = _
    rw [hs.origin?, hr₁, if_neg (by simp), Builder.flow, hin.grown.origin?, if_neg (by simp)]
    rfl
  · exact hs.params.trans hin.grown.params
  · exact hs.imports.trans hin.grown.imports
  · have hw := hs.weight hi₁
    have hw₁ := hin.grown.weight
    rw [hw, Builder.flow, hw₁]
    rfl

namespace Func

variable {f f₁ : Func} {entry block taken : BlockId} {front : List InstId}
  {term j : InstId} {inst : Inst} {dropped? : Option BlockId}

def renames (term j i : InstId) : InstId := if i = term then j else i

section Jumps

variable (hf : f.Formed entry) (hxs : f.insts block = .ok (front ++ [term]))
  (hi : f.flow.inst? term = some inst) (hterm : inst.op.isTerminator = true)
  (hj : f.Jumps f₁ block front term j taken)

include hj

theorem Jumps.ne {i : InstId} {jnst : Inst} (hjnst : f.flow.inst? i = some jnst) : i ≠ j := by
  rintro rfl
  rw [hj.fresh] at hjnst
  cases hjnst

include hf hxs

theorem Jumps.insts_eq {c : BlockId} {ys : List InstId} (hys : f.insts c = .ok ys) :
    f₁.insts c = .ok (ys.map (renames term j)) := by
  have hlast : term ∈ front ++ [term] := List.mem_append_right _ List.mem_cons_self
  by_cases hc : c = block
  · subst hc
    rw [hxs] at hys
    cases hys
    rw [hj.here, List.map_append, List.map_singleton, renames, if_pos rfl]
    congr 2
    refine ((List.map_congr_left fun i hi' => if_neg ?_).trans (List.map_id' front)).symm
    rintro rfl
    exact (List.nodup_append.1 (hf.coherent.layout.insts_nodup hxs)).2.2 i hi' i
      List.mem_cons_self rfl
  · rw [hj.others hc, hys]
    congr 1
    refine ((List.map_congr_left fun i hi' => if_neg ?_).trans (List.map_id' ys)).symm
    rintro rfl
    exact hc (hf.coherent.layout.one_block hys hxs hi' hlast)

include hi hterm

theorem Jumps.phis_eq {c : BlockId} {ys : List InstId} (hys : f.insts c = .ok ys) :
    f₁.phis c = .ok (ys.takeWhile f.flow.isPhi) := by
  have hisPhi : ∀ i ∈ ys, f₁.flow.isPhi (renames term j i) = f.flow.isPhi i := by
    intro i hiy
    obtain ⟨jnst, hjnst⟩ := hf.coherent.inst_of_mem hys hiy
    by_cases hit : i = term
    · subst hit
      rw [renames, if_pos rfl, DataFlow.isPhi_of_inst hj.jump, DataFlow.isPhi_of_inst hi]
      exact (Opcode.not_phi_of_terminator hterm).symm
    · rw [renames, if_neg hit, DataFlow.isPhi_of_inst hjnst]
      exact DataFlow.isPhi_of_inst ((hj.inst? (hj.ne hjnst) hit).trans hjnst)
  have hsame : (ys.takeWhile f.flow.isPhi).map (renames term j) = ys.takeWhile f.flow.isPhi := by
    refine (List.map_congr_left fun i hiy => if_neg ?_).trans (List.map_id' _)
    rintro rfl
    have hphi := List.all_eq_true.1 List.all_takeWhile i hiy
    rw [DataFlow.isPhi_of_inst hi, Opcode.not_phi_of_terminator hterm] at hphi
    cases hphi
  unfold Func.phis
  rw [hj.insts_eq hf hxs hys, ok_bind, takeWhile_map_of hisPhi, hsame]

end Jumps

/-- The edges that are left when a branch at the end of `block` has become a jump. -/
def folds (block : BlockId) (dropped? : Option BlockId) (c p : BlockId) : Bool :=
  !(p = block && dropped? = some c)

def Forsaken (f : Func) (dropped? : Option BlockId) (phis : List InstId) : Prop :=
  ∀ i, i ∈ phis ↔ ∃ d xs, dropped? = some d ∧ f.insts d = .ok xs ∧ i ∈ xs.takeWhile f.flow.isPhi

section Folded

variable {way : Inst → BlockId → Prop} (ht : f.Neat entry)
  (hxs : f.insts block = .ok (front ++ [term])) (hi : f.flow.inst? term = some inst)
  (hterm : inst.op.isTerminator = true) (hparts : Parts inst taken dropped?)
  (hj : f.Jumps f₁ block front term j taken) {phis : List InstId} (hphis : f.Forsaken dropped? phis)
  {g : DataFlow} (hg : g.Exact)
  (hR : DataFlow.Rewired f₁.flow g fun i inst =>
    if i ∈ phis then inst.keepEdges (· ≠ block) else inst)

include ht hj hphis hR

theorem folded_inst {c : BlockId} {ys : List InstId} {i : InstId} {jnst : Inst}
    (hys : f.insts c = .ok ys) (hiy : i ∈ ys) (hne : i ≠ term)
    (hjnst : f.flow.inst? i = some jnst) :
    g.inst? i = some (jnst.keepEdges (folds block dropped? c)) := by
  rw [hR.inst?, hj.inst? (hj.ne hjnst) hne, hjnst, Option.map_some, Option.some.injEq]
  cases hop : jnst.op.isPhi with
  | false =>
    rw [if_neg, keepEdges_of_not_phi (ht.forms hjnst) hop]
    rintro hmem
    obtain ⟨d, xs, -, hxs, hphi⟩ := (hphis i).1 hmem
    have hisPhi := List.all_eq_true.1 List.all_takeWhile i hphi
    rw [DataFlow.isPhi_of_inst hjnst, hop] at hisPhi
    cases hisPhi
  | true =>
    have hisPhi : f.flow.isPhi i = true := (DataFlow.isPhi_of_inst hjnst).trans hop
    by_cases hd : dropped? = some c
    · rw [if_pos ((hphis i).2 ⟨c, ys, hd, hys, ht.shape.mem_phis hys hiy hisPhi⟩)]
      congr 1
      funext p
      simp [folds, hd]
    · rw [if_neg, Inst.keepEdges_eq_self (ht.coherent.flow.even hjnst)]
      · intro p _
        simp [folds, hd]
      · intro hmem
        obtain ⟨d, xs, hd', hxs, hphi⟩ := (hphis i).1 hmem
        have hone := ht.coherent.layout.one_block hxs hys
          ((List.takeWhile_prefix _).subset hphi) hiy
        exact hd (hone ▸ hd')

include hxs hi hterm hparts

theorem folded_leads {p c : BlockId} (hl : f.Leads p c) :
    folds block dropped? c p = true ↔ ({ f₁ with flow := g } : Func).Leads p c := by
  have hjump : g.inst? j = some (.jump .br taken) := by
    rw [hR.inst?, hj.jump, Option.map_some]
    split <;> rfl
  by_cases hp : p = block
  · subst hp
    rw [leads_last_iff (f := { f₁ with flow := g }) hj.here hjump rfl]
    have hc := (hparts.blocks c).1 ((leads_last_iff hxs hi hterm).1 hl)
    simp only [folds, decide_true, Bool.true_and, Bool.not_eq_true',
      decide_eq_false_iff_not, Inst.blocks, List.mem_singleton]
    exact ⟨hc.resolve_right, fun hc hd => hparts.ne (hc ▸ hd)⟩
  · obtain ⟨ys, u, unst, hys, hlast, hu, hut, hc⟩ := leads_iff.1 hl
    have huy := List.mem_of_getLast? hlast
    have hne : u ≠ term := by
      rintro rfl
      exact hp (ht.coherent.layout.one_block hys hxs huy
        (List.mem_append_right _ List.mem_cons_self))
    have hu' := folded_inst ht hj hphis hR hys huy hne hu
    rw [keepEdges_of_not_phi (ht.forms hu) (Opcode.not_phi_of_terminator hut)] at hu'
    have hleads : ({ f₁ with flow := g } : Func).Leads p c :=
      leads_iff.2 ⟨ys, u, unst, (hj.others hp).trans hys, hlast, hu', hut, hc⟩
    exact ⟨fun _ => hleads, fun _ => by simp [folds, hp]⟩

include hg

theorem folded_pruned (hway : way inst taken) :
    f.Pruned { f₁ with flow := g } entry (fun _ => True) (renames term j) id
      (folds block dropped?) way := by
  have hf := ht.toFormed
  refine ⟨hj.coherent.rewire hg hR, hj.alike.sig, hR.params.trans hj.params,
    hR.imports.trans hj.imports, hj.alike.starts hf.starts, ?_, ?_, ?_, ?_, ?_, ?_,
    fun _ hn => absurd trivial hn, fun _ _ => trivial,
    fun _ hl => folded_leads ht hxs hi hterm hparts hj hphis hR hl⟩
  · intro c ys'
    constructor
    · intro hys'
      have hmem : c ∈ f₁.blocks := Layout.mem_blocks_iff.2 ⟨ys', hys'⟩
      rw [show f₁.blocks = f.blocks from hj.alike.blocks] at hmem
      obtain ⟨ys, hys⟩ := Layout.mem_blocks_iff.1 hmem
      exact ⟨trivial, ys, hys, Except.ok.inj (hys'.symm.trans (hj.insts_eq hf hxs hys))⟩
    · rintro ⟨-, ys, hys, rfl⟩
      exact hj.insts_eq hf hxs hys
  · intro i hn
    refine if_neg ?_
    rintro rfl
    rw [DataFlow.isTerminator_of_inst hi, hterm] at hn
    cases hn
  · intro c ys i jnst _ hys hiy hjnst
    by_cases hit : i = term
    · subst hit
      rw [hi] at hjnst
      cases hjnst
      refine ⟨.jump .br taken, ?_, .always hterm ((hparts.blocks taken).2 (.inl rfl)) hway⟩
      show g.inst? _ = _
      rw [renames, if_pos rfl, hR.inst?, hj.jump, Option.map_some]
      split <;> rfl
    · refine ⟨(jnst.keepEdges (folds block dropped? c)).mapArgs id, ?_, .same⟩
      show g.inst? _ = _
      rw [renames, if_neg hit, Inst.mapArgs_eq_self (g := id) fun _ _ => rfl]
      exact folded_inst ht hj hphis hR hys hiy hit hjnst
  · intro c ys i _ hys hiy
    show g.result? _ = _
    by_cases hit : i = term
    · subst hit
      rw [renames, if_pos rfl, hR.result?, hj.mute,
        ht.last ((DataFlow.isTerminator_of_inst hi).trans hterm)]
    · obtain ⟨jnst, hjnst⟩ := hf.coherent.inst_of_mem hys hiy
      rw [renames, if_neg hit, hR.result?, hj.result? (hj.ne hjnst) hit]
  · intro v o hv
    exact .inl ⟨rfl, hR.origin? ((hj.origin? v).trans hv)⟩
  · intro v o hv
    rw [← hj.origin? v]
    exact hR.added hv

end Folded

end Func

namespace Builder

variable {b : Builder} {entry block taken : BlockId} {front : List InstId}
  {term : InstId} {inst : Inst} {dropped? : Option BlockId}

theorem forgetEach_yields {c : Builder} (h : c.func.Coherent) (p : BlockId) {phis : List InstId}
    (hphis : ∀ i ∈ phis, ∃ op args preds, c.flow.inst? i = some (.phi op args preds)) :
    (phis.foldlM (fun (b : Builder) phi => do
        let (_, flow) ← b.flow.removeIncoming phi p
        return b.withFlow flow) c : Run Builder).Yields (c.Forgot p phis) := by
  refine Run.yields_foldlM (fun done d => c.Forgot p done d) (.nil h p) fun pre i post d he hd => ?_
  obtain ⟨n, g, hg, hforgot⟩ := hd.step (hphis i (he ▸ List.mem_append_right _ List.mem_cons_self))
  exact (Run.yields_lift ⟨(n, g), hg, rfl⟩).bind fun _ hr => hr ▸ Run.yields_pure hforgot

/-- What folding a branch leaves: the same blocks with an edge less, and a function that weighs one
less. -/
structure Folded (b b' : Builder) (entry block : BlockId) (dropped? : Option BlockId)
    (way : Inst → BlockId → Prop) :
    Prop where
  pruned : ∃ σ, b.func.Pruned b'.func entry (fun _ => True) σ id (Func.folds block dropped?) way
  name : b'.func.name = b.func.name
  blocks : b'.func.blocks = b.func.blocks
  weight : b'.flow.weight + 1 = b.flow.weight

theorem Folded.leads {b' : Builder} {way : Inst → BlockId → Prop}
    (h : b.Folded b' entry block dropped? way) (hf : b.func.Formed entry) (p c : BlockId) :
    b'.func.Leads p c ↔ b.func.Leads p c ∧ ¬ (p = block ∧ dropped? = some c) := by
  obtain ⟨σ, hpruned⟩ := h.pruned
  have hgate : Func.folds block dropped? c p = true ↔ ¬ (p = block ∧ dropped? = some c) := by
    simp only [Func.folds, Bool.not_eq_true', Bool.and_eq_false_iff,
      decide_eq_false_iff_not, not_and_or]
  rw [← hgate]
  constructor
  · intro hl
    have hlead := (hpruned.leads hf hl).2
    exact ⟨hlead, (hpruned.gate_iff trivial hlead).2 hl⟩
  · rintro ⟨hl, hg⟩
    exact (hpruned.gate_iff trivial hl).1 hg

theorem Folded.eased {b' : Builder} (h : b.Folded b' entry block dropped? b.func.OneWay)
    (ht : b.func.Neat entry) :
    b.Eased b' entry true := by
  obtain ⟨σ, hpruned⟩ := h.pruned
  refine ⟨hpruned.neat ht, hpruned.tidy, fun htidy _ _ => hpruned.returns htidy, ?_,
    fun h => by cases h⟩
  have hweight : b'.func.flow.weight + 1 = b.func.flow.weight := h.weight
  simp only [Func.extent, h.blocks, Bool.toNat_true]
  omega

theorem foldBranch_yields (way : Inst → BlockId → Prop) (ht : b.func.Neat entry)
    (hxs : b.func.insts block = .ok (front ++ [term])) (hi : b.flow.inst? term = some inst)
    (hop : inst.op = .brCond) (hparts : Func.Parts inst taken dropped?) (hway : way inst taken) :
    (b.foldBranch block term taken dropped?).Yields fun b' =>
      b.Folded b' entry block dropped? way := by
  have hterm : inst.op.isTerminator = true := by rw [hop]; rfl
  obtain ⟨j, b₁, b₂, hbr, hrem, hj, hw⟩ := jump_ok ht.coherent taken hxs hi
    (ht.last ((DataFlow.isTerminator_of_inst hi).trans hterm))
  have hdone : ∀ {c phis}, b.func.Forsaken dropped? phis → b₂.Forgot block phis c →
      b.Folded c entry block dropped? way := by
    intro c phis hphis hc
    have hfunc : c.func = { b₂.func with flow := c.flow } := by rw [hc.same]; rfl
    have hpruned := Func.folded_pruned ht hxs hi hterm hparts hj hphis hc.exact hc.rewired hway
    rw [← hfunc] at hpruned
    have hweight := hc.rewired.weight fun {i inst} _ => by
      split
      · exact Inst.op_keepEdges _ _
      · rfl
    refine ⟨⟨_, hpruned⟩, ?_, ?_, ?_⟩
    · rw [hfunc]
      exact hj.alike.name
    · rw [hfunc]
      exact hj.alike.blocks
    · rw [hop, show Opcode.weight .brCond = 2 from rfl] at hw
      rw [show c.flow.weight = b₂.flow.weight from hweight]
      omega
  unfold foldBranch
  refine (Run.yields_log (P := fun _ => True) trivial).bind fun _ _ => ?_
  refine (Run.yields_lift ⟨_, hbr, rfl⟩).bind ?_
  rintro _ rfl
  refine (Run.yields_lift ⟨_, hrem, rfl⟩).bind ?_
  rintro _ rfl
  cases dropped? with
  | none =>
    have hnil : b.func.Forsaken none [] := fun i => by simp
    exact Run.yields_pure (hdone hnil (.nil hj.coherent block))
  | some d =>
    obtain ⟨ys, hys⟩ :=
      Layout.mem_blocks_iff.1 (ht.shape.targets hi d ((hparts.blocks d).2 (.inr rfl)))
    refine (Run.yields_lift ⟨_, hj.phis_eq ht.toFormed hxs hi hterm hys, rfl⟩).bind ?_
    rintro _ rfl
    refine (forgetEach_yields hj.coherent block fun i hi' => ?_).mono fun c hc =>
      hdone (fun i => ?_) hc
    · have hiy := (List.takeWhile_prefix _).subset hi'
      have hphi := List.all_eq_true.1 List.all_takeWhile i hi'
      obtain ⟨jnst, hjnst⟩ := ht.coherent.inst_of_mem hys hiy
      have hit : i ≠ term := by
        rintro rfl
        have hplain := Func.not_phi_of_terminator ((DataFlow.isTerminator_of_inst hi).trans hterm)
        exact Bool.false_ne_true (hplain.symm.trans hphi)
      obtain ⟨args, preds, rfl⟩ := Verify.phi_of_form (ht.forms hjnst)
        ((DataFlow.isPhi_of_inst hjnst).symm.trans hphi)
      exact ⟨_, args, preds, (hj.inst? (hj.ne hjnst) hit).trans hjnst⟩
    · constructor
      · exact fun hi' => ⟨d, ys, rfl, hys, hi'⟩
      · rintro ⟨d', ys', hd', hys', hi'⟩
        cases hd'
        cases Except.ok.inj (hys.symm.trans hys')
        exact hi'

end Builder

namespace FlowSimplification

/-- What is decided of a conditional branch is where it goes. -/
theorem decided?_ok {f : Func} (hc : f.Coherent) {term : InstId} {c : ValueId}
    {onTrue onFalse : BlockId} (hi : f.flow.inst? term = some (.branch .brCond c onTrue onFalse)) :
    ∃ r, decided? f.flow (.branch .brCond c onTrue onFalse) = .ok r ∧
      ∀ taken dropped?, r = some (taken, dropped?) → Func.Parts
        (.branch .brCond c onTrue onFalse) taken dropped? ∧ f.OneWay
        (.branch .brCond c onTrue onFalse) taken := by
  obtain ⟨o, ho⟩ := hc.flow.operand hi List.mem_cons_self
  show ∃ r, (if onTrue = onFalse then Except.ok (some (onTrue, none)) else _) = .ok r ∧ _
  by_cases hsame : onTrue = onFalse
  · refine ⟨_, if_pos hsame, ?_⟩
    rintro taken dropped? ⟨⟩
    refine ⟨⟨fun b => ?_, fun h => by cases h⟩, fun s b hg => ?_⟩
    · simp [Inst.blocks, ← hsame]
    · have := hg.reads.2
      simpa [Inst.blocks, ← hsame] using this
  · rw [if_neg hsame]
    unfold DataFlow.const?
    rw [DataFlow.origin_eq_ok.2 ho, ok_bind]
    cases o with
    | const w =>
      refine ⟨_, rfl, ?_⟩
      intro taken dropped? hr
      have hread : ∀ s : Frame, s.read f c = .ok (.word w) := fun s => by
        unfold Frame.read
        rw [ho]
      have hgoes : ∀ s b, Frame.Goes f s (.branch .brCond c onTrue onFalse) b →
          b = if w.isZero then onFalse else onTrue := by
        intro s b hg
        cases hg with
        | branch hw =>
          rw [hread s] at hw
          cases hw
          rfl
      split at hr <;> rename_i hw <;> cases hr
      · refine ⟨⟨fun b => ?_, fun h => hsame (Option.some.inj h)⟩,
          fun s b hg => by rw [hgoes s b hg, if_pos hw]⟩
        simp only [Inst.blocks, List.mem_cons, List.not_mem_nil, or_false, Option.some.injEq]
        rw [or_comm, eq_comm (b := b)]
      · refine ⟨⟨fun b => ?_, fun h => hsame (Option.some.inj h).symm⟩,
          fun s b hg => by rw [hgoes s b hg, if_neg hw]⟩
        simp only [Inst.blocks, List.mem_cons, List.not_mem_nil, or_false, Option.some.injEq]
        rw [eq_comm (b := b)]
    | _ => exact ⟨none, rfl, fun _ _ h => by cases h⟩

theorem foldBranches_yields {b : Builder} {entry : BlockId} (ht : b.func.Neat entry) :
    (foldBranches b).Yields fun r => b.Eased r.2 entry r.1 := by
  unfold foldBranches
  refine (Run.yields_foldlM (fun _ (r : Bool × Builder) => b.Eased r.2 entry r.1 ∧
    r.2.func.blocks = b.func.blocks) ⟨.refl ht, rfl⟩ ?_).mono fun _ h => h.1
  rintro pre block post ⟨modified, c⟩ he ⟨hc, hblocks⟩
  have hmem : block ∈ c.func.blocks := by
    rw [hblocks, he]
    exact List.mem_append_right _ List.mem_cons_self
  obtain ⟨xs, hxs⟩ := Layout.mem_blocks_iff.1 hmem
  obtain ⟨front, term, rfl, hterm, -⟩ := hc.neat.shape.ended hxs
  obtain ⟨inst, hinst⟩ := DataFlow.inst_of_isTerminator hterm
  refine (Run.yields_lift ⟨_, Func.terminator?_last hxs hterm, rfl⟩).bind ?_
  rintro _ rfl
  refine (Run.yields_lift ⟨_, DataFlow.inst_eq_ok.2 hinst, rfl⟩).bind ?_
  rintro _ rfl
  split
  · exact Run.yields_pure ⟨hc, hblocks⟩
  · rename_i hop
    have hop : inst.op = .brCond := not_not.1 hop
    obtain ⟨cond, onTrue, onFalse, rfl⟩ := Verify.branch_of_form (hc.neat.forms hinst) hop
    obtain ⟨r, hr, hdec⟩ := decided?_ok hc.neat.coherent hinst
    refine (Run.yields_lift ⟨_, hr, rfl⟩).bind ?_
    rintro _ rfl
    match r, hdec with
    | none, _ => exact Run.yields_pure ⟨hc, hblocks⟩
    | some (taken, dropped?), hdec =>
      obtain ⟨hparts, hway⟩ := hdec _ _ rfl
      refine (Builder.foldBranch_yields c.func.OneWay hc.neat hxs hinst rfl hparts hway).bind
        fun c' hc' => ?_
      exact Run.yields_pure ⟨hc.step (hc'.eased hc.neat), hc'.blocks.trans hblocks⟩

end FlowSimplification

end MiddleEnd
