import MiddleEnd.Proofs.Restatement

/-!
# Value numbering

The numbers form a forest whose roots stand for the values above them. Every number given is equal
to the value it is given to, in every run; this is kept by each step of the walk over the dominator
tree, and what the walk leaves behind is a restatement of the function in which the redundant
instructions can be done without.
-/

namespace MiddleEnd

namespace ValueNumbering

/-- Following the numbers from `v` takes `k` steps and ends at `n`. -/
inductive Ends (numbers : Dict ValueId ValueId) : Nat → ValueId → ValueId → Prop where
  | here {v : ValueId} : numbers.get? v = none → Ends numbers 0 v v
  | next {k : Nat} {v m n : ValueId} : numbers.get? v = some m → m ≠ v → Ends numbers k m n →
      Ends numbers (k + 1) v n

/-- From every value the numbers lead to an end, in no more steps than there are entries. -/
def Forest (numbers : Dict ValueId ValueId) : Prop :=
  ∀ v, ∃ k n, k ≤ numbers.entries.length ∧ Ends numbers k v n

theorem Ends.root {numbers : Dict ValueId ValueId} {k : Nat} {v n : ValueId}
    (h : Ends numbers k v n) :
    numbers.get? n = none := by
  induction h with
  | here hv => exact hv
  | next _ _ _ ih => exact ih

theorem Ends.numberWithin {numbers : Dict ValueId ValueId} {k fuel : Nat} {v n : ValueId}
    (h : Ends numbers k v n) (hk : k < fuel) : State.numberWithin numbers fuel v = n := by
  induction h generalizing fuel with
  | here hv =>
    cases fuel with
    | zero => omega
    | succ fuel =>
      unfold State.numberWithin
      rw [hv]
  | next hv hne _ ih =>
    cases fuel with
    | zero => omega
    | succ fuel =>
      unfold State.numberWithin
      rw [hv]
      simp only [if_neg hne]
      exact ih (by omega)

theorem Ends.insert {numbers : Dict ValueId ValueId} {k : Nat} {r v w n : ValueId}
    (h : Ends numbers k w n) (hr : numbers.get? r = none) (hv : numbers.get? v = none)
    (hne : v ≠ r) :
    ∃ k' n', k' ≤ k + 1 ∧ Ends (numbers.insert r v) k' w n' := by
  have hget : ∀ {u}, u ≠ r → (numbers.insert r v).get? u = numbers.get? u := fun hu => by
    rw [Dict.get?_insert, if_neg (Ne.symm hu)]
  have hroot : Ends (numbers.insert r v) 0 v v := .here ((hget hne).trans hv)
  induction h with
  | @here w hw =>
    by_cases hwr : w = r
    · subst hwr
      refine ⟨1, v, by omega, .next ?_ hne hroot⟩
      rw [Dict.get?_insert, if_pos rfl]
    · exact ⟨0, w, by omega, .here ((hget hwr).trans hw)⟩
  | @next k w m n hw hm _ ih =>
    have hwr : w ≠ r := by
      rintro rfl
      rw [hr] at hw
      cases hw
    obtain ⟨k', n', hk', he⟩ := ih
    exact ⟨k' + 1, n', by omega, .next ((hget hwr).trans hw) hm he⟩

theorem length_write {r v : ValueId} {xs : List (ValueId × ValueId)} (h : Dict.find r xs = none) :
    (Dict.write r v xs).length = xs.length + 1 := by
  induction xs with
  | nil => rfl
  | cons p xs ih =>
    unfold Dict.find at h
    unfold Dict.write
    split at h
    · cases h
    · rw [if_neg (by assumption), List.length_cons, List.length_cons, ih h]

theorem Forest.insert {numbers : Dict ValueId ValueId} {r v : ValueId} (h : Forest numbers)
    (hr : numbers.get? r = none) (hv : numbers.get? v = none) (hne : v ≠ r) :
    Forest (numbers.insert r v) := by
  intro w
  obtain ⟨k, n, hk, he⟩ := h w
  obtain ⟨k', n', hk', he'⟩ := he.insert hr hv hne
  refine ⟨k', n', ?_, he'⟩
  have : (numbers.insert r v).entries.length = numbers.entries.length + 1 := length_write hr
  omega

theorem Forest.number {s : State} (h : Forest s.numbers) (v : ValueId) :
    ∃ k, Ends s.numbers k v (s.number v) := by
  obtain ⟨k, n, hk, he⟩ := h v
  refine ⟨k, ?_⟩
  unfold State.number
  rw [he.numberWithin (by omega)]
  exact he

/-- Every number is equal to what it is the number of, and the values with numbers are the results
of the redundant instructions. -/
structure Sound (f : Func) (entry : BlockId) (s : State) : Prop where
  func : s.builder.func = { f with flow := s.flow }
  restated : f.Restated entry s.flow
  forest : Forest s.numbers
  equal : ∀ {v n}, s.numbers.get? v = some n → f.Equal entry s.flow v n
  key : ∀ {v n}, s.numbers.get? v = some n → ∃ i ∈ s.redundant, f.flow.result? i = some v
  redundant : ∀ i ∈ s.redundant, ∃ v n inst, f.flow.result? i = some v ∧ s.numbers.get? v = some n ∧
    f.flow.inst? i = some inst ∧ (inst.op.isPure = true ∨ inst.op.isPhi = true)
  nodup : s.redundant.Nodup

/-- What a part of the walk does: only instructions of a region become redundant, and only phis and
instructions of the region change. -/
structure Moves (region : InstId → Prop) (s s' : State) : Prop where
  redundant : ∀ i ∈ s'.redundant, i ∈ s.redundant ∨ region i
  kept : ∀ {j jnst}, s.flow.inst? j = some jnst → jnst.op.isPhi = false → ¬ region j →
    s'.flow.inst? j = some jnst
  origin? : ∀ {v o}, s.flow.origin? v = some o → s'.flow.origin? v = some o

variable {f : Func} {entry : BlockId} {s s' s'' : State} {region region' : InstId → Prop}

theorem Moves.refl (region : InstId → Prop) (s : State) : Moves region s s :=
  ⟨fun _ hi => .inl hi, fun hj _ _ => hj, fun hv => hv⟩

theorem Moves.trans (h : Moves region s s') (h' : Moves region s' s'') : Moves region s s'' where
  redundant i hi := by
    rcases h'.redundant i hi with hi | hi
    · exact h.redundant i hi
    · exact .inr hi
  kept hj hp hr := h'.kept (h.kept hj hp hr) hp hr
  origin? hv := h'.origin? (h.origin? hv)

theorem Moves.mono (h : Moves region s s') (himp : ∀ i, region i → region' i) :
    Moves region' s s' where
  redundant i hi := (h.redundant i hi).imp_right (himp i)
  kept hj hp hr := h.kept hj hp fun hi => hr (himp _ hi)
  origin? := h.origin?

namespace Sound

theorem number_root (h : Sound f entry s) (v : ValueId) : s.numbers.get? (s.number v) = none := by
  obtain ⟨k, he⟩ := h.forest.number v
  exact he.root

theorem number_equal (h : Sound f entry s) {v : ValueId} {o : ValueDef}
    (hv : s.flow.origin? v = some o) :
    f.Equal entry s.flow v (s.number v) := by
  obtain ⟨k, he⟩ := h.forest.number v
  generalize s.number v = n at he
  induction he generalizing o with
  | here => exact .refl hv
  | next hm _ _ ih =>
    have hvm := h.equal hm
    obtain ⟨o', ho'⟩ := hvm.known
    exact hvm.trans (ih ho')

theorem number_none (h : Sound f entry s) (hf : f.Coherent) {i : InstId} {r : ValueId}
    (hr : f.flow.result? i = some r) (hi : i ∉ s.redundant) : s.numbers.get? r = none := by
  cases hn : s.numbers.get? r with
  | none => rfl
  | some n =>
    obtain ⟨j, hj, hjr⟩ := h.key hn
    obtain ⟨ty, ho, -⟩ := hf.flow.result_origin hr
    rw [hf.flow.definer_eq hjr ho] at hi
    exact absurd hj hi

theorem withFlow (h : Sound f entry s) {g : DataFlow} {ρ : InstId → Inst → Inst}
    (hg : f.Restated entry g) (hR : DataFlow.Rewired s.flow g ρ) :
    Sound f entry (s.withFlow g) where
  func := by
    show { s.builder.func with flow := g } = { f with flow := g }
    rw [h.func]
  restated := hg
  forest := h.forest
  equal hn := (h.equal hn).extend hR
  key := h.key
  redundant := h.redundant
  nodup := h.nodup

/-- The result of an instruction gets an equal value as its number. -/
theorem merge (h : Sound f entry s) (hf : f.Coherent) {i : InstId} {r v : ValueId} {inst : Inst}
    (hi : f.flow.inst? i = some inst) (hop : inst.op.isPure = true ∨ inst.op.isPhi = true)
    (hr : f.flow.result? i = some r) (hnew : i ∉ s.redundant)
    (hroot : s.numbers.get? v = none) (hne : v ≠ r) (he : f.Equal entry s.flow r v) :
    (s.merge i v).Yields fun s' => Sound f entry s' ∧ s'.redundant = s.redundant ++ [i] ∧
    s'.flow = s.flow := by
  have hrnone := h.number_none hf hr hnew
  unfold State.merge
  refine (Run.yields_lift ⟨r, ?_, rfl⟩).bind ?_
  · rw [DataFlow.result_eq_ok, h.restated.result?]
    exact hr
  rintro _ rfl
  refine (Run.yields_log (P := fun _ => True) trivial).bind fun _ _ =>
    Run.yields_pure ⟨?_, rfl, rfl⟩
  refine ⟨h.func, h.restated, h.forest.insert hrnone hroot hne, ?_, ?_, ?_, ?_⟩
  · intro w n hn
    rw [Dict.get?_insert] at hn
    split at hn
    · rename_i hrw
      subst hrw
      cases hn
      exact he
    · exact h.equal hn
  · intro w n hn
    rw [Dict.get?_insert] at hn
    split at hn
    · rename_i hrw
      subst hrw
      exact ⟨i, by simp, hr⟩
    · obtain ⟨j, hj, hjw⟩ := h.key hn
      exact ⟨j, List.mem_append_left _ hj, hjw⟩
  · intro j hj
    rcases List.mem_append.1 hj with hj | hj
    · obtain ⟨w, n, jnst, hw, hn, hjnst, hjop⟩ := h.redundant j hj
      by_cases hrw : r = w
      · exact ⟨w, v, jnst, hw, by rw [Dict.get?_insert, if_pos hrw], hjnst, hjop⟩
      · exact ⟨w, n, jnst, hw, by rw [Dict.get?_insert, if_neg hrw]; exact hn, hjnst, hjop⟩
    · obtain rfl := List.mem_singleton.1 hj
      exact ⟨r, v, inst, hr, by rw [Dict.get?_insert, if_pos rfl], hi, hop⟩
  · exact List.nodup_append.2 ⟨h.nodup, by simp, fun a ha b hb hab => by
      rw [List.mem_singleton.1 hb] at hab
      exact hnew (hab ▸ ha)⟩

end Sound

theorem mem_phiEdges {t : DominatorTree} {inst : Inst} {p : BlockId} {y : ValueId} :
    (p, y) ∈ s.phiEdges t inst ↔ ∃ x, (x, p) ∈ inst.edges ∧ t.isReachable p = true ∧
    y = s.number x := by
  unfold State.phiEdges
  rw [List.mem_mergeSort, List.mem_map]
  constructor
  · rintro ⟨⟨x, q⟩, hm, he⟩
    cases he
    obtain ⟨hm, hq⟩ := List.mem_filter.1 hm
    exact ⟨x, hm, hq, rfl⟩
  · rintro ⟨x, hm, hp, rfl⟩
    exact ⟨(x, p), List.mem_filter.2 ⟨hm, hp⟩, rfl⟩

theorem mem_of_lookup {α β : Type} [BEq α] [LawfulBEq α] {xs : List (α × β)} {a : α} {b : β}
    (h : xs.lookup a = some b) : (a, b) ∈ xs := by
  obtain ⟨l₁, l₂, rfl, -⟩ := List.lookup_eq_some_iff.1 h
  exact List.mem_append_right _ List.mem_cons_self

theorem edge_unique {inst : Inst} (hn : inst.blocks.Nodup) {x y : ValueId} {p : BlockId}
    (hx : (x, p) ∈ inst.edges) (hy : (y, p) ∈ inst.edges) : x = y := by
  cases inst with
  | phi op args preds =>
    obtain ⟨n, hn'⟩ := List.mem_iff_getElem?.1 hx
    obtain ⟨m, hm'⟩ := List.mem_iff_getElem?.1 hy
    obtain ⟨hxn, hpn⟩ := List.getElem?_zip_eq_some.1 hn'
    obtain ⟨hym, hpm⟩ := List.getElem?_zip_eq_some.1 hm'
    rw [getElem?_inj hn hpn hpm, hym] at hxn
    exact (Option.some.inj hxn).symm
  | _ => cases hx

theorem decides_result {g : DataFlow} {i : InstId} :
    (liftM (g.result i) : Run ValueId).Decides (∃ r, g.result? i = some r) fun r =>
      g.result? i = some r := by
  constructor
  · rintro ⟨r, hr⟩
    exact Run.yields_lift ⟨r, DataFlow.result_eq_ok.2 hr, hr⟩
  · intro hn
    cases hr : g.result? i with
    | none => exact Run.fails_lift (e := .dataAbsent) (by rw [DataFlow.result, hr]; rfl)
    | some r => exact absurd ⟨r, hr⟩ hn

/-- The merges listed so far are those of phis that came before and are not redundant. -/
def Listed (f : Func) (entry : BlockId) (s : State) (before : List InstId)
    (seen : List (List (BlockId × ValueId) × ValueId)) : Prop :=
  ∀ {edges v}, (edges, v) ∈ seen → ∃ psi inst, psi ∈ before ∧ s.flow.inst? psi = some inst ∧
    f.flow.result? psi = some v ∧ psi ∉ s.redundant ∧
    ∀ {p z}, (p, z) ∈ edges → ∃ y, (y, p) ∈ inst.edges ∧ f.Equal entry s.flow y z

theorem numberPhis_spec (hf : f.Regular entry) (hty : f.Typed) (hd : f.Dominated entry)
    {t : DominatorTree} (ht : t.Faithful f entry) {b : BlockId} {xs : List InstId}
    (hb : f.insts b = .ok xs) (hreach : Connects f.Leads entry b)
    {seen : List (List (BlockId × ValueId) × ValueId)} {before rest : List InstId}
    (hphis : xs.takeWhile f.flow.isPhi = before ++ rest) (hs : Sound f entry s)
    (hnew : ∀ i ∈ rest, i ∉ s.redundant) (hseen : Listed f entry s before seen) :
    (State.numberPhis t seen rest s).Decides (∀ i ∈ rest, ∃ r, f.flow.result? i = some r) fun s' =>
      Sound f entry s' ∧ s'.flow = s.flow ∧ ∀ i ∈ s'.redundant, i ∈ s.redundant ∨ i ∈ rest := by
  induction rest generalizing seen before s with
  | nil =>
    refine (Run.yields_pure ?_).decides.congr (by simp)
    exact ⟨hs, rfl, fun i hi => .inl hi⟩
  | cons phi rest ih =>
    have hphi : phi ∈ xs.takeWhile f.flow.isPhi := by
      rw [hphis]
      exact List.mem_append_right _ List.mem_cons_self
    have hmem : phi ∈ xs := (List.takeWhile_prefix _).subset hphi
    have hn : (before ++ phi :: rest).Nodup := by
      rw [← hphis]
      exact (List.takeWhile_prefix _).sublist.nodup (hf.coherent.layout.insts_nodup hb)
    obtain ⟨inst₀, hi₀⟩ := hf.coherent.inst_of_mem hb hmem
    obtain ⟨inst, hi, hm⟩ := hs.restated.inst_ok hi₀
    have hop : inst₀.op.isPhi = true := by
      rw [← DataFlow.isPhi_of_inst hi₀]
      exact List.all_eq_true.1 List.all_takeWhile phi hphi
    have hrest : ∀ i ∈ rest, i ≠ phi := by
      rintro i hir rfl
      exact (List.nodup_cons.1 (List.nodup_append.1 hn).2.1).1 hir
    have hphis' : xs.takeWhile f.flow.isPhi = (before ++ [phi]) ++ rest := by
      rw [hphis, List.append_assoc]
      rfl
    have hknown : ∀ {x p}, (x, p) ∈ inst.edges → f.Equal entry s.flow x (s.number x) := by
      intro x p hx
      have hxa : x ∈ inst.args := Inst.arg_of_edge hx
      obtain ⟨o, ho⟩ := hs.restated.exact.operand hi hxa
      exact hs.number_equal ho
    -- Whatever the phi is equal to, the walk goes on in the same way from there.
    have hgo : ∀ {r v}, f.flow.result? phi = some r → s.numbers.get? v = none → v ≠ r →
        f.Equal entry s.flow r v →
        (s.merge phi v >>= fun s' => State.numberPhis t seen rest s').Decides
          (∀ i ∈ rest, ∃ r, f.flow.result? i = some r) fun s' =>
          Sound f entry s' ∧ s'.flow = s.flow ∧ ∀ i ∈ s'.redundant, i ∈ s.redundant ∨
            i ∈ phi :: rest := by
      intro r v hr hroot hne he
      have hmerge := hs.merge hf.coherent hi₀ (.inr hop) hr
        (hnew phi List.mem_cons_self) hroot hne he
      refine hmerge.bind_decides fun s₁ ⟨hs₁, hred, hflow⟩ => (ih hphis' hs₁ ?_ ?_).mono ?_
      · intro i hi' hm'
        rw [hred] at hm'
        rcases List.mem_append.1 hm' with hm' | hm'
        · exact hnew i (List.mem_cons_of_mem _ hi') hm'
        · exact hrest i hi' (List.mem_singleton.1 hm')
      · intro edges w hw
        obtain ⟨psi, pinst, hpsi, hpinst, hpr, hpred, hedges⟩ := hseen hw
        have hne' : psi ≠ phi := by
          rintro rfl
          exact (List.nodup_append.1 hn).2.2 psi hpsi psi List.mem_cons_self rfl
        rw [hflow]
        refine ⟨psi, pinst, List.mem_append_left _ hpsi, hpinst, hpr, ?_, hedges⟩
        rw [hred]
        intro hm'
        rcases List.mem_append.1 hm' with hm' | hm'
        · exact hpred hm'
        · exact hne' (List.mem_singleton.1 hm')
      · rintro s₂ ⟨hs₂, hflow₂, hred₂⟩
        refine ⟨hs₂, hflow₂.trans hflow, fun i hi' => ?_⟩
        rcases hred₂ i hi' with hi' | hi'
        · rw [hred] at hi'
          rcases List.mem_append.1 hi' with hi' | hi'
          · exact .inl hi'
          · exact .inr (List.mem_cons.2 (.inl (List.mem_singleton.1 hi')))
        · exact .inr (List.mem_cons_of_mem _ hi')
    unfold State.numberPhis
    refine Run.Decides.congr (C := (∃ r, s.flow.result? phi = some r) ∧
      ∀ i ∈ rest, ∃ r, f.flow.result? i = some r) (decides_result.bind fun r hr => ?_) ?_
    · rw [hs.restated.result?] at hr
      refine (Run.yields_lift ⟨inst, DataFlow.inst_eq_ok.2 hi, rfl⟩).bind_decides ?_
      rintro _ rfl
      dsimp only
      split
      · rename_i v hv
        have hone : ∀ y, (y ∈ (s.phiEdges t inst).map (·.2) ∧ y ≠ r) ↔ y = v := by
          intro y
          have := List.mem_eraseDups (l := ((s.phiEdges t inst).map (·.2)).filter (· ≠ r)) (a := y)
          rw [hv, List.mem_singleton, List.mem_filter] at this
          simpa using this.symm
        obtain ⟨hvm, hvr⟩ := (hone v).2 rfl
        obtain ⟨⟨c, _⟩, hcv, rfl⟩ := List.mem_map.1 hvm
        obtain ⟨a, ha, hc, hav⟩ := mem_phiEdges.1 hcv
        refine hgo hr ?_ hvr ?_
        · rw [hav]
          exact hs.number_root a
        · have hr' : s.flow.result? phi = some r := by rw [hs.restated.result?]; exact hr
          refine hs.restated.of_single hf hty hd hb hphi hreach hi hr' ha
            (by rw [hav]; exact hknown ha) fun {x p} hx hp => ?_
          refine ⟨s.number x, hknown hx, ?_⟩
          have hxm : s.number x ∈ (s.phiEdges t inst).map (·.2) :=
            List.mem_map.2 ⟨(p, s.number x),
              mem_phiEdges.2 ⟨x, hx, (ht.isReachable_iff p).2 hp, rfl⟩, rfl⟩
          by_cases hxr : s.number x = r
          · exact .inr hxr
          · exact .inl ((hone _).1 ⟨hxm, hxr⟩)
      · split
        · rename_i v hv
          obtain ⟨psi, pinst, hpsi, hpinst, hpr, hpred, hedges⟩ := hseen (mem_of_lookup hv)
          have hr' : s.flow.result? phi = some r := by rw [hs.restated.result?]; exact hr
          have hpr' : s.flow.result? psi = some v := by rw [hs.restated.result?]; exact hpr
          have hne' : psi ≠ phi := by
            rintro rfl
            exact (List.nodup_append.1 hn).2.2 psi hpsi psi List.mem_cons_self rfl
          obtain ⟨ys, hys⟩ : ∃ ys, xs = before ++ phi :: ys := by
            refine ⟨rest ++ xs.dropWhile f.flow.isPhi, ?_⟩
            rw [← List.cons_append, ← List.append_assoc, ← hphis, List.takeWhile_append_dropWhile]
          have hpsi' : psi ∈ xs.takeWhile f.flow.isPhi := by
            rw [hphis]
            exact List.mem_append_left _ hpsi
          have hnodup : pinst.blocks.Nodup := by
            have hisphi : s.flow.isPhi psi = true := by
              rw [hs.restated.isPhi]
              exact List.all_eq_true.1 List.all_takeWhile psi hpsi'
            exact ((hs.restated.regular hf).shape.phi_edges hb
              ((List.takeWhile_prefix _).subset hpsi') hisphi hpinst).1
          rw [hys] at hb hphi hpsi'
          refine hgo hr (hs.number_none hf.coherent hpr hpred) ?_ ?_
          · rintro rfl
            obtain ⟨ty, ho, -⟩ := hf.coherent.flow.result_origin hr
            exact hne' (hf.coherent.flow.definer_eq hpr ho).symm
          · refine hs.restated.of_twins hf hty hb hpsi hphi hpsi' hi hpinst hr' hpr' hreach
              fun {x y p} hx hy hp => ?_
            obtain ⟨y', hy', he⟩ :=
              hedges (mem_phiEdges.2 ⟨x, hx, (ht.isReachable_iff p).2 hp, rfl⟩)
            rw [edge_unique hnodup hy hy']
            exact ⟨s.number x, hknown hx, he⟩
        · refine (ih hphis' hs (fun i hi' => hnew i (List.mem_cons_of_mem _ hi')) ?_).mono ?_
          · intro edges v hv
            rcases List.mem_cons.1 hv with he | hv
            · cases he
              refine ⟨phi, inst, by simp, hi, hr, hnew phi List.mem_cons_self, fun {p z} hpz => ?_⟩
              obtain ⟨x, hx, -, rfl⟩ := mem_phiEdges.1 hpz
              exact ⟨x, hx, hknown hx⟩
            · obtain ⟨psi, pinst, hpsi, hrest'⟩ := hseen hv
              exact ⟨psi, pinst, List.mem_append_left _ hpsi, hrest'⟩
          · rintro s₂ ⟨hs₂, hflow₂, hred₂⟩
            exact ⟨hs₂, hflow₂, fun i hi' => (hred₂ i hi').imp_right (List.mem_cons_of_mem _)⟩
    · rw [List.forall_mem_cons, hs.restated.result?]

theorem numberOperands_spec (hs : Sound f entry s) {i : InstId} {inst : Inst}
    (hi : s.flow.inst? i = some inst) :
    (s.numberOperands i).Yields fun s' => Sound f entry s' ∧ Moves (· = i) s s' ∧
    s'.redundant = s.redundant ∧
      ∃ inst', s'.flow.inst? i = some inst' ∧ inst'.op = inst.op := by
  unfold State.numberOperands
  refine (Run.yields_lift ⟨inst, DataFlow.inst_eq_ok.2 hi, rfl⟩).bind ?_
  rintro _ rfl
  refine (Run.yields_foldlM (fun pre c => Sound f entry c ∧ Moves (· = i) s c ∧
    c.redundant = s.redundant ∧
    ∃ inst', c.flow.inst? i = some inst' ∧ inst'.op = inst.op ∧
      ∀ m, pre.length ≤ m → inst'.args[m]? = inst.args[m]?) ?_ ?_).mono ?_
  · exact ⟨hs, .refl _ _, rfl, inst, hi, rfl, fun _ _ => rfl⟩
  · rintro pre ⟨v, n⟩ post c he ⟨hc, hmoves, hred, inst', hi', hop, hargs⟩
    -- The operand at the position of this step has not been touched yet.
    have hn : n = pre.length := by
      have := congrArg (fun l => l[pre.length]?) he
      simp only [List.getElem?_zipIdx, List.getElem?_append_right (Nat.le_refl _), Nat.sub_self,
        List.getElem?_cons_zero] at this
      obtain ⟨w, -, hw⟩ := Option.map_eq_some_iff.1 this
      have := congrArg Prod.snd hw
      simpa using this.symm
    have hv : inst.args[n]? = some v := by
      have hm : (v, n) ∈ inst.args.zipIdx := by
        rw [he]
        exact List.mem_append_right _ List.mem_cons_self
      exact List.mk_mem_zipIdx_iff_getElem?.1 hm
    have hv' : inst'.args[n]? = some v := by
      rw [hargs n (by omega)]
      exact hv
    dsimp only
    split
    · refine Run.yields_pure ⟨hc, hmoves, hred, inst', hi', hop, fun m hm => ?_⟩
      rw [List.length_append] at hm
      exact hargs m (by simp at hm; omega)
    · obtain ⟨o, ho⟩ := hc.restated.exact.operand hi' (List.mem_of_getElem? hv')
      obtain ⟨g, hg, hrest, hR⟩ := hc.restated.setArg hi' hv' (hc.number_equal ho)
      refine (Run.yields_lift ⟨g, hg, rfl⟩).bind ?_
      rintro _ rfl
      have hset : g.inst? i = some (inst'.setArg n (c.number v)) := by
        rw [hR.inst?, hi', Option.map_some, if_pos rfl]
      refine Run.yields_pure ⟨hc.withFlow hrest hR,
        hmoves.trans ⟨fun _ h => .inl h, ?_, hR.origin?⟩, hred, _, hset, ?_, ?_⟩
      · intro j jnst hj _ hne
        show g.inst? j = _
        rw [hR.inst?, hj, Option.map_some, if_neg hne]
      · rw [Inst.op_setArg, hop]
      · intro m hm
        rw [List.length_append] at hm
        have hm : n + 1 ≤ m := by simp at hm; omega
        rw [Inst.args_setArg _ (List.getElem?_eq_some_iff.1 hv').1, List.getElem?_set_ne (by omega)]
        exact hargs m (by omega)
  · rintro s' ⟨hs', hmoves, hred, inst', hi', hop, -⟩
    exact ⟨hs', hmoves, hred, inst', hi', hop⟩

/-- Every expression on offer is that of an instruction behind a point, which yields the value and
is not redundant. -/
def Offers (f : Func) (entry : BlockId) (s : State) (b : BlockId) (rest : List InstId)
    (available : Available) : Prop :=
  ∀ ⦃e v⦄, (e, v) ∈ available → ∃ j jnst, s.flow.inst? j = some jnst ∧ jnst.op.isPure = true ∧
    f.flow.result? j = some v ∧ Expr.of s.flow j = .ok e ∧ j ∉ s.redundant ∧
    f.Behind f.Leads entry b rest j

theorem not_phi_of_pure {op : Opcode} (h : op.isPure = true) : op.isPhi = false := by
  revert h
  cases op <;> decide

theorem Expr.of_congr {g g' : DataFlow} {i : InstId} {inst : Inst} {e : Expr}
    (hi : g.inst? i = some inst) (hi' : g'.inst? i = some inst) (hr : g'.result? i = g.result? i)
    (ho : ∀ {v o}, g.origin? v = some o → g'.origin? v = some o) (he : Expr.of g i = .ok e) :
    Expr.of g' i = .ok e := by
  cases inst with
  | unary op x =>
    obtain ⟨r, ty, hr', hty, rfl⟩ := (Expr.of_unary hi).1 he
    obtain ⟨o, hor, rfl⟩ := DataFlow.ty_eq_ok.1 hty
    exact (Expr.of_unary hi').2 ⟨r, _, hr.trans hr', DataFlow.ty_of_origin (ho hor), rfl⟩
  | binary op x y => exact (Expr.of_binary hi').2 ((Expr.of_binary hi).1 he)
  | _ =>
    unfold Expr.of at he
    rw [DataFlow.inst_eq_ok.2 hi, ok_bind] at he
    cases he

theorem Offers.moves {b : BlockId} {rest : List InstId} {available : Available}
    (h : Offers f entry s b rest available) (hs : Sound f entry s) (hs' : Sound f entry s')
    (hm : Moves region s s') (hout : ∀ {j}, f.Behind f.Leads entry b rest j → ¬ region j) :
    Offers f entry s' b rest available := by
  intro e v hev
  obtain ⟨j, jnst, hj, hpure, hv, he, hred, hb⟩ := h hev
  have hj' := hm.kept hj (not_phi_of_pure hpure) (hout hb)
  refine ⟨j, jnst, hj', hpure, hv, ?_, fun hm' => ?_, hb⟩
  · refine Expr.of_congr hj hj' ?_ hm.origin? he
    rw [hs'.restated.result?, hs.restated.result?]
  · rcases hm.redundant j hm' with hr | hr
    · exact hred hr
    · exact hout hb hr

theorem Offers.mono {b : BlockId} {rest rest' : List InstId} {available : Available}
    (h : Offers f entry s b rest available)
    (himp : ∀ {j}, f.Behind f.Leads entry b rest j → f.Behind f.Leads entry b rest' j) :
    Offers f entry s b rest' available := by
  intro e v hev
  obtain ⟨j, jnst, hj, hpure, hv, he, hred, hb⟩ := h hev
  exact ⟨j, jnst, hj, hpure, hv, he, hred, himp hb⟩

theorem Expr.of_ok {g : DataFlow} {i : InstId} {inst : Inst} {r : ValueId} (hg : g.Exact)
    (hi : g.inst? i = some inst) (hform : Verify.formFits inst = true)
    (hpure : inst.op.isPure = true) (hr : g.result? i = some r) :
    ∃ e, Expr.of g i = .ok e := by
  cases inst with
  | unary op x =>
    obtain ⟨ty, ho, -⟩ := hg.result_origin hr
    exact ⟨_, (Expr.of_unary hi).2 ⟨r, _, hr, DataFlow.ty_of_origin ho, rfl⟩⟩
  | binary op x y => exact ⟨_, (Expr.of_binary hi).2 rfl⟩
  | _ op =>
    cases op <;> first | (cases hform; done) | cases hpure

theorem numberInst_spec (hf : f.Regular entry) (hty : f.Typed)
    (hwide : ∀ i, f.yieldTy i ≠ .int 0) {b : BlockId} {pre rest : List InstId} {i : InstId}
    (hb : f.insts b = .ok (pre ++ i :: rest)) (hcon : Connects f.Leads entry b)
    (hs : Sound f entry s) (hnew : i ∉ s.redundant) {available : Available}
    (hav : Offers f entry s b (i :: rest) available) :
    (s.numberInst available i).Yields fun r => Sound f entry r.1 ∧ Moves (· = i) s r.1 ∧
      Offers f entry r.1 b rest r.2 := by
  have hmem : i ∈ pre ++ i :: rest := List.mem_append_right _ List.mem_cons_self
  obtain ⟨inst₀, hi₀⟩ := hf.coherent.inst_of_mem hb hmem
  obtain ⟨inst₁, hi₁, hm₁⟩ := hs.restated.inst_ok hi₀
  have hout : ∀ {j}, f.Behind f.Leads entry b (i :: rest) j → ¬ j = i := by
    rintro j ⟨home, xs, hhome, hj, hg, hout⟩ rfl
    obtain rfl := hf.coherent.layout.one_block hb hhome hmem hj
    exact hout rfl List.mem_cons_self
  have hon : ∀ {j}, f.Behind f.Leads entry b (i :: rest) j →
      f.Behind f.Leads entry b rest j := fun hj =>
    (hf.behind_cons hb hcon).2 (.inr hj)
  unfold State.numberInst
  refine (numberOperands_spec hs hi₁).bind fun s' ⟨hs', hmoves, hred, inst, hi, hop⟩ => ?_
  have hav' := hav.moves hs hs' hmoves hout
  refine (Run.yields_lift ⟨inst, DataFlow.inst_eq_ok.2 hi, rfl⟩).bind ?_
  rintro _ rfl
  by_cases hpure : inst.op.isPure = true
  · have hpure₀ : inst₀.op.isPure = true := by
      rw [← hm₁.op_eq, ← hop]
      exact hpure
    have hregular := hs'.restated.regular hf
    have hform : Verify.formFits inst = true := hregular.forms hi
    have hrule := hs'.restated.types hf hty hi
    obtain ⟨r, -, hr, -, -⟩ := Func.Rule.yields hform hrule hpure
    have hr₀ : f.flow.result? i = some r := by
      rw [← hs'.restated.result?]
      exact hr
    have hnew' : i ∉ s'.redundant := by
      rw [hred]
      exact hnew
    have hwide' : ({ f with flow := s'.flow } : Func).yieldTy i ≠ .int 0 := by
      rw [hs'.restated.yieldTy_eq hf.coherent]
      exact hwide i
    -- Once the result has a number, the instruction is redundant and nothing else has changed.
    have hgo : ∀ {s₁ : State} {v}, Sound f entry s₁ → Moves (· = i) s s₁ →
        s₁.redundant = s'.redundant →
        Offers f entry s₁ b (i :: rest) available → s₁.numbers.get? v = none → v ≠ r →
        f.Equal entry s₁.flow r v →
        (s₁.merge i v).Yields fun s₂ => Sound f entry s₂ ∧ Moves (· = i) s s₂ ∧
        Offers f entry s₂ b rest available := by
      intro s₁ v hs₁ hm hred₁ hav₁ hroot hne he
      have hnew₁ : i ∉ s₁.redundant := by
        rw [hred₁]
        exact hnew'
      refine (hs₁.merge hf.coherent hi₀ (.inl hpure₀) hr₀ hnew₁ hroot hne he).mono fun s₂ ⟨hs₂,
        hred₂, hflow₂⟩ => ?_
      have hm₂ : Moves (· = i) s₁ s₂ := by
        refine ⟨fun j hj => ?_, fun hj _ _ => by rw [hflow₂]; exact hj,
          fun hv => by rw [hflow₂]; exact hv⟩
        rw [hred₂] at hj
        exact (List.mem_append.1 hj).imp_right List.mem_singleton.1
      exact ⟨hs₂, hm.trans hm₂, (hav₁.moves hs₁ hs₂ hm₂ hout).mono hon⟩
    rw [if_neg (by simp [hpure])]
    obtain ⟨w?, hfold, hw⟩ :=
      Func.Rule.fold?_ok (f := { f with flow := s'.flow }) hs'.restated.exact hi hform
        hrule hpure hwide'
    refine (Run.yields_lift ⟨w?, hfold, rfl⟩).bind ?_
    rintro _ rfl
    cases w? with
    | some w =>
      obtain ⟨hwty, hgives⟩ := hw w rfl
      obtain ⟨v, g, hg, hv, hE, hR⟩ :=
        DataFlow.shared_ok hs'.restated.exact (o := .const w) (.inl rfl)
      have hrest := hs'.restated.shared hE hR
      have hnot : ∀ {j ty}, f.flow.origin? v ≠ some (.result ty j) := by
        intro j ty ho
        rw [hrest.origin? ho] at hv
        cases hv
      have hroot : s'.numbers.get? v = none := by
        cases hn : s'.numbers.get? v with
        | none => rfl
        | some n =>
          obtain ⟨j, -, hj⟩ := hs'.key hn
          obtain ⟨ty, ho, -⟩ := hf.coherent.flow.result_origin hj
          exact absurd ho hnot
      have hne : v ≠ r := by
        rintro rfl
        obtain ⟨ty, ho, -⟩ := hf.coherent.flow.result_origin hr₀
        exact hnot ho
      have hs₁ := hs'.withFlow hrest hR
      have hi₁ : g.inst? i = some inst := by rw [hR.inst?, hi, Option.map_some]
      have hm₁ : Moves (· = i) s' (s'.withFlow g) :=
        ⟨fun _ h => .inl h, fun hj _ _ => by show g.inst? _ = _; rw [hR.inst?, hj,
          Option.map_some], hR.origin?⟩
      have hr₁ : g.result? i = some r := by rw [hR.result?, hr]
      have hty₁ : ({ f with flow := g } : Func).yieldTy i = w.ty := by
        rw [hrest.yieldTy_eq hf.coherent, ← hs'.restated.yieldTy_eq hf.coherent, hwty]
      have he : f.Equal entry g r v := by
        refine hrest.of_fold hf hi₁ hpure hr₁ hv hty₁ fun t d hd => hgives t d ?_
        -- The constant may be new, but no operand is.
        refine hd.carry (R := Eq) (.of_args fun _ _ => rfl) ?_ ?_ rfl rfl
        · rintro x _ a hx rfl hxa
          obtain ⟨o, ho⟩ := hs'.restated.exact.operand hi hx
          rw [← hxa]
          exact Frame.read_congr (ho.trans (hR.origin? ho).symm) rfl
        · exact (Frame.resultWidth?_rewire (f := { f with flow := s'.flow })
            hs'.restated.exact hR i).symm
      have hconst : s'.flow.const w = (v, g) := hg
      simp only [hconst]
      refine (hgo hs₁ (hmoves.trans hm₁) rfl (hav'.moves hs' hs₁ hm₁ hout) hroot hne he).bind
        fun s₂ hs₂ => ?_
      exact Run.yields_pure hs₂
    | none =>
      obtain ⟨e, he⟩ := Expr.of_ok hs'.restated.exact hi hform hpure hr
      refine (Run.yields_lift ⟨e, he, rfl⟩).bind ?_
      rintro _ rfl
      split
      · rename_i v hv
        obtain ⟨j, jnst, hj, hpj, hjv, hej, hjred, hjb⟩ := hav' (mem_of_lookup hv)
        have hne : v ≠ r := by
          rintro rfl
          obtain ⟨ty, ho, -⟩ := hf.coherent.flow.result_origin hr₀
          exact hout hjb (hf.coherent.flow.definer_eq hjv ho).symm
        have hjv' : s'.flow.result? j = some v := by
          rw [hs'.restated.result?]
          exact hjv
        have heq := hs'.restated.of_expr hf hty hb hi hj hpure hpj he hej hr hjv' hjb
        refine (hgo hs' hmoves rfl hav' (hs'.number_none hf.coherent hjv hjred) hne heq).bind
          fun s₂ hs₂ => ?_
        exact Run.yields_pure hs₂
      · refine (Run.yields_lift ⟨r, DataFlow.result_eq_ok.2 hr, rfl⟩).bind ?_
        rintro _ rfl
        refine Run.yields_pure ⟨hs', hmoves, fun e' v hev => ?_⟩
        rcases List.mem_cons.1 hev with hev | hev
        · cases hev
          exact ⟨i, inst, hi, hpure, hr₀, he, hnew', (hf.behind_cons hb hcon).2 (.inl rfl)⟩
        · exact hav'.mono hon hev
  · rw [if_pos (by simpa using hpure)]
    exact Run.yields_pure ⟨hs', hmoves, hav'.mono hon⟩

theorem setIncoming_spec (hs : Sound f entry s) {phi : InstId} {inst : Inst}
    {b : BlockId} {x : ValueId} (hi : s.flow.inst? phi = some inst) (hop : inst.op.isPhi = true)
    (hx : s.flow.incoming? phi b = .ok (some x)) :
    ∃ g, s.flow.setIncoming phi b (s.number x) = .ok g ∧ Sound f entry (s.withFlow g) ∧
      Moves (fun _ => False) s (s.withFlow g) := by
  have hedge := DataFlow.edge_of_incoming? hi hx
  cases inst with
  | phi op args preds =>
    obtain ⟨n, hn, hv⟩ := (DataFlow.incoming?_eq_ok hi).1 hx
    obtain ⟨o, ho⟩ := hs.restated.exact.operand hi (List.mem_of_getElem? hv)
    obtain ⟨g, hg, hrest, hR⟩ := hs.restated.setArg hi hv (hs.number_equal ho)
    refine ⟨g, ?_, hs.withFlow hrest hR,
      ⟨fun _ h => .inl h, fun {j jnst} hj hjp _ => ?_, hR.origin?⟩⟩
    · unfold DataFlow.setIncoming DataFlow.phiLists
      simp only [DataFlow.inst_eq_ok.2 hi, ok_bind, hn]
      exact hg
    · have hne : j ≠ phi := by
        rintro rfl
        rw [hi] at hj
        cases hj
        rw [hop] at hjp
        cases hjp
      show g.inst? j = _
      rw [hR.inst?, hj, Option.map_some, if_neg hne]
  | _ => cases hedge

theorem fillSuccessors_spec (hf : f.Regular entry) (hs : Sound f entry s) {b : BlockId}
    (hb : b ∈ f.blocks) :
    (s.fillSuccessors b).Yields fun s' => Sound f entry s' ∧ Moves (fun _ => False) s s' := by
  unfold State.fillSuccessors State.func
  obtain ⟨succs, hsuccs⟩ := Func.successors_ok (f := { f with flow := s.flow }) hb
  rw [← hs.func] at hsuccs
  refine (Run.yields_lift ⟨succs, hsuccs, rfl⟩).bind ?_
  rintro _ rfl
  refine Run.yields_foldlM (fun _ c => Sound f entry c ∧ Moves (fun _ => False) s c)
    ⟨hs, .refl _ _⟩ ?_
  rintro pre succ post c he ⟨hc, hm⟩
  have hleads : f.Leads b succ := by
    rw [← hs.restated.leads_iff, ← hs.func]
    refine ⟨succs, hsuccs, ?_⟩
    rw [he]
    exact List.mem_append_right _ List.mem_cons_self
  obtain ⟨xs, hxs⟩ := Layout.mem_blocks_iff.1 (hf.shape.closed b hb succ hleads)
  have hphis : c.builder.func.phis succ = .ok (xs.takeWhile c.flow.isPhi) := by
    rw [hc.func]
    unfold Func.phis Func.insts
    rw [hxs]
    rfl
  refine (Run.yields_lift ⟨_, hphis, rfl⟩).bind ?_
  rintro _ rfl
  refine Run.yields_foldlM (fun _ c' => Sound f entry c' ∧ Moves (fun _ => False) s c') ⟨hc, hm⟩ ?_
  rintro pre' phi post' c' he' ⟨hc', hm'⟩
  have hphi : phi ∈ xs.takeWhile c'.flow.isPhi := by
    have hsame : c'.flow.isPhi = c.flow.isPhi := by
      funext i
      rw [hc'.restated.isPhi, hc.restated.isPhi]
    rw [hsame, he']
    exact List.mem_append_right _ List.mem_cons_self
  obtain ⟨x, inst, hi, hx, -, hop⟩ :=
    (hc'.restated.regular hf).incoming hxs hphi (hc'.restated.leads_iff.2 hleads)
  refine (Run.yields_lift ⟨some x, hx, rfl⟩).bind ?_
  rintro _ rfl
  dsimp only
  split
  · exact Run.yields_pure ⟨hc', hm'⟩
  · obtain ⟨g, hg, hs'', hm''⟩ := setIncoming_spec hc' hi hop hx
    refine (Run.yields_lift ⟨g, hg, rfl⟩).bind ?_
    rintro _ rfl
    exact Run.yields_pure ⟨hs'', hm'.trans hm''⟩

def PhisYield (f : Func) (entry b : BlockId) : Prop :=
  ∀ ⦃home phis⦄, Guards f.Leads entry b home → f.phis home = .ok phis →
    ∀ i ∈ phis, ∃ r, f.flow.result? i = some r

theorem numberBody_spec (hf : f.Regular entry) (hty : f.Typed)
    (hwide : ∀ i, f.yieldTy i ≠ .int 0) {b : BlockId} {front body : List InstId}
    (hb : f.insts b = .ok (front ++ body)) (hcon : Connects f.Leads entry b) (hs : Sound f entry s)
    (hnew : ∀ i ∈ body, i ∉ s.redundant) {available : Available}
    (hav : Offers f entry s b body available) :
    (body.foldlM (fun (r : State × Available) i => r.1.numberInst r.2 i) (s, available)).Yields
      fun r =>
      Sound f entry r.1 ∧ Moves (· ∈ body) s r.1 ∧ Offers f entry r.1 b [] r.2 := by
  induction body generalizing front s available with
  | nil => exact Run.yields_pure ⟨hs, .refl _ _, hav⟩
  | cons i body ih =>
    rw [List.foldlM_cons]
    refine (numberInst_spec hf hty hwide hb hcon hs (hnew i List.mem_cons_self) hav).bind ?_
    rintro ⟨s₁, available₁⟩ ⟨hs₁, hm₁, hav₁⟩
    have hn := hf.coherent.layout.insts_nodup hb
    have hb' : f.insts b = .ok ((front ++ [i]) ++ body) := by
      rw [hb, List.append_assoc]
      rfl
    refine (ih hb' hs₁ ?_ hav₁).mono ?_
    · intro j hj hred
      rcases hm₁.redundant j hred with hj' | rfl
      · exact hnew j (List.mem_cons_of_mem _ hj) hj'
      · exact (List.nodup_cons.1 (List.nodup_append.1 hn).2.1).1 hj
    · rintro ⟨s₂, available₂⟩ ⟨hs₂, hm₂, hav₂⟩
      refine ⟨hs₂, (hm₁.mono ?_).trans (hm₂.mono fun j => List.mem_cons_of_mem _), hav₂⟩
      rintro j rfl
      exact List.mem_cons_self

theorem not_below_of_behind (hf : f.Regular entry) {b c : BlockId} {i : InstId} (hne : b ≠ c)
    (hg : Guards f.Leads entry b c) (hi : f.Behind f.Leads entry b [] i) : ¬ f.Below entry c i := by
  rintro ⟨home, xs, hhome, hix, hgc⟩
  obtain ⟨hgb, -⟩ := (hf.behind_iff hhome hix).1 hi
  exact hne (hg.antisymm (hgc.trans hgb))

theorem phisYield_iff {t : DominatorTree} (ht : t.Faithful f entry) {b : BlockId}
    (hcon : Connects f.Leads entry b) {phis : List InstId} (hphis : f.phis b = .ok phis)
    {cs : List BlockId} (hcs : ∀ c, c ∈ cs ↔ t.idom? c = some b) :
    PhisYield f entry b ↔ (∀ i ∈ phis, ∃ r, f.flow.result? i = some r) ∧
    ∀ c ∈ cs, PhisYield f entry c := by
  constructor
  · intro h
    refine ⟨h hcon.guards_self hphis, fun c hc home phis' hg hp => ?_⟩
    exact h ((ht.guards_iff hcon).2 (.inr ⟨c, (hcs c).1 hc, hg⟩)) hp
  · rintro ⟨hb, hc⟩ home phis' hg hp
    rcases (ht.guards_iff hcon).1 hg with rfl | ⟨c, hcb, hgc⟩
    · rw [hphis] at hp
      cases hp
      exact hb
    · exact hc c ((hcs c).2 hcb) hgc hp

theorem filter_body (hf : f.Regular entry) {b : BlockId} {xs : List InstId}
    (hb : f.insts b = .ok xs) :
    xs.filter (!f.flow.isPhi ·) = xs.dropWhile f.flow.isPhi := by
  obtain ⟨-, hplain, hsplit⟩ := hf.body_of_block hb
  calc xs.filter (!f.flow.isPhi ·)
      = (xs.takeWhile f.flow.isPhi ++ xs.dropWhile f.flow.isPhi).filter (!f.flow.isPhi
      ·) := by rw [← hsplit]
    _ = xs.dropWhile f.flow.isPhi := by
      rw [List.filter_append, List.filter_eq_nil_iff.2, List.filter_eq_self.2, List.nil_append]
      · intro i hi
        simp [hplain i hi]
      · intro i hi
        simp [List.all_eq_true.1 List.all_takeWhile i hi]

theorem walk_spec (hf : f.Regular entry) (hty : f.Typed) (hd : f.Dominated entry)
    (hwide : ∀ i, f.yieldTy i ≠ .int 0) {t : DominatorTree} (ht : t.Faithful f entry) {n k : Nat}
    {b : BlockId} (hk : t.order[k]? = some b) (hn : t.order.length ≤ k + n) {available : Available}
    (hs : Sound f entry s) (hnew : ∀ i ∈ s.redundant, ¬ f.Below entry b i)
    (hav : ∀ {xs}, f.insts b = .ok xs → Offers f entry s b xs available) :
    (State.walk t n available s b).Decides (PhisYield f entry b) fun s' =>
      Sound f entry s' ∧ Moves (f.Below entry b) s s' := by
  refine ht.induct (P := fun n b => ∀ {available s}, Sound f entry s →
    (∀ i ∈ s.redundant, ¬ f.Below entry b i) →
    (∀ {xs}, f.insts b = .ok xs → Offers f entry s b xs available) →
    (State.walk t n available s b).Decides (PhisYield f entry b) fun s' =>
      Sound f entry s' ∧ Moves (f.Below entry b) s s') ?_ hk hn hs hnew hav
  clear hk hn hs hnew hav
  intro n b hcon ih available s hs hnew hav
  have hbmem : b ∈ f.blocks := hf.shape.closed.connects_mem hf.starts hcon
  obtain ⟨xs, hxs⟩ := Layout.mem_blocks_iff.1 hbmem
  have hxs : f.insts b = .ok xs := hxs
  obtain ⟨cs, hcs, hcsn, hcsm⟩ := ht.children hcon
  have hin : ∀ {i}, i ∈ xs → f.Below entry b i := fun hi => ⟨b, xs, hxs, hi, hcon.guards_self⟩
  have hphis : f.phis b = .ok (xs.takeWhile f.flow.isPhi) := by
    unfold Func.phis
    rw [hxs]
    rfl
  have hphis' : s.builder.func.phis b = .ok (xs.takeWhile f.flow.isPhi) := by
    have he : s.flow.isPhi = f.flow.isPhi := funext hs.restated.isPhi
    rw [hs.func, ← he]
    unfold Func.phis
    show (f.insts b >>= _) = _
    rw [hxs]
    rfl
  unfold State.walk State.func
  refine (Run.yields_log (P := fun _ => True) trivial).bind_decides fun _ _ => ?_
  refine (Run.yields_lift ⟨_, hphis', rfl⟩).bind_decides ?_
  rintro _ rfl
  have hfront : xs.takeWhile f.flow.isPhi = [] ++ xs.takeWhile f.flow.isPhi := rfl
  refine ((numberPhis_spec hf hty hd ht hxs hcon hfront hs (fun i hi hr =>
    hnew i hr (hin ((List.takeWhile_prefix _).subset hi))) (by intro _ _ h; cases h)).bind
      fun s₁ ⟨hs₁, hflow₁, hred₁⟩ => ?_).congr (phisYield_iff ht hcon hphis hcsm).symm
  have hm₁ : Moves (f.Below entry b) s s₁ := by
    refine ⟨fun i hi => ?_, fun hj _ _ => by rw [hflow₁]; exact hj,
      fun hv => by rw [hflow₁]; exact hv⟩
    exact (hred₁ i hi).imp_right fun hi => hin ((List.takeWhile_prefix _).subset hi)
  obtain ⟨-, -, hsplit⟩ := hf.body_of_block hxs
  have hbody : ∀ {i}, i ∈ xs.dropWhile f.flow.isPhi → i ∈ xs := fun hi => by
    rw [hsplit]
    exact List.mem_append_right _ hi
  have hn := hf.coherent.layout.insts_nodup hxs
  rw [hsplit] at hn
  have hxs₁ : s₁.builder.func.insts b = .ok xs := by
    rw [hs₁.func]
    exact hxs
  refine (Run.yields_lift ⟨xs, hxs₁, rfl⟩).bind_decides ?_
  rintro _ rfl
  have hfilter : xs.filter (!s₁.flow.isPhi ·) = xs.dropWhile f.flow.isPhi := by
    have he : s₁.flow.isPhi = f.flow.isPhi := funext hs₁.restated.isPhi
    rw [he]
    exact filter_body hf hxs
  rw [hfilter]
  have hav₁ : Offers f entry s₁ b (xs.dropWhile f.flow.isPhi) available := by
    refine ((hav hxs).moves hs hs₁ hm₁ ?_).mono ?_
    · intro j hj hbelow
      obtain ⟨home, ys, hhome, hjy, hg, hout⟩ := hj
      obtain ⟨home', zs, hhome', hjz, hg'⟩ := hbelow
      obtain rfl := hf.coherent.layout.one_block hhome hhome' hjy hjz
      have he := hg.antisymm hg'
      subst he
      rw [hxs] at hhome
      cases hhome
      exact hout rfl hjy
    · rintro j ⟨home, ys, hhome, hjy, hg, hout⟩
      exact ⟨home, ys, hhome, hjy, hg, fun he hm => hout he (hbody hm)⟩
  have hnew₁ : ∀ i ∈ xs.dropWhile f.flow.isPhi, i ∉ s₁.redundant := by
    intro i hi hr
    rcases hred₁ i hr with hr | hr
    · exact hnew i hr (hin (hbody hi))
    · exact (List.nodup_append.1 hn).2.2 i hr i hi rfl
  rw [hsplit] at hxs
  refine (numberBody_spec hf hty hwide hxs hcon hs₁ hnew₁ hav₁).bind_decides ?_
  rintro ⟨s₂, available₂⟩ ⟨hs₂, hm₂, hav₂⟩
  refine (fillSuccessors_spec hf hs₂ hbmem).bind_decides fun s₃ ⟨hs₃, hm₃⟩ => ?_
  have hav₃ := hav₂.moves hs₂ hs₃ hm₃ (by simp)
  have hm₂' : Moves (f.Below entry b) s₁ s₂ := hm₂.mono fun i hi => hin (hbody hi)
  have hm₃' : Moves (f.Below entry b) s s₃ := (hm₁.trans hm₂').trans (hm₃.mono (by simp))
  have hred₃ : ∀ i ∈ s₃.redundant, i ∈ s.redundant ∨ i ∈ xs := by
    intro i hi
    rcases hm₃.redundant i hi with hi | hi
    · rcases hm₂.redundant i hi with hi | hi
      · exact (hred₁ i hi).imp_right fun hi => (List.takeWhile_prefix _).subset hi
      · exact .inr (hbody hi)
    · exact hi.elim
  refine (Run.yields_lift ⟨cs, hcs, rfl⟩).bind_decides ?_
  rintro _ rfl
  -- Every child is walked from where the children before it have left things.
  refine (Run.decides_foldlM (fun done c => Sound f entry c ∧
    Moves (fun i => ∃ d ∈ done, f.Below entry d i) s₃ c) (PhisYield f entry) ⟨hs₃,
    .refl _ _⟩ ?_).mono ?_
  · rintro done d post c he ⟨hc, hm⟩
    have hchild : ∀ {x}, x ∈ done ++ d :: post → t.idom? x = some b :=
      fun hx => (hcsm _).1 (by rw [he]; exact hx)
    have hd := hchild (List.mem_append_right _ List.mem_cons_self)
    obtain ⟨hbd, hgd, -⟩ := (ht.idom?_iff d b).1 hd
    rw [he] at hcsn
    refine (ih d hd hc ?_ ?_).mono ?_
    · intro i hi hbelow
      rcases hm.redundant i hi with hi | ⟨d', hd', home, ys, hhome, hiy, hg⟩
      · rcases hred₃ i hi with hi | hi
        · exact hnew i hi (hbelow.trans hgd)
        · obtain ⟨home, ys, hhome, hiy, hg⟩ := hbelow
          rw [← hsplit] at hxs
          obtain rfl := hf.coherent.layout.one_block hhome hxs hiy hi
          exact hbd (hgd.antisymm hg)
      · obtain ⟨home', zs, hhome', hiz, hg'⟩ := hbelow
        obtain rfl := hf.coherent.layout.one_block hhome hhome' hiy hiz
        have := ht.children_apart (hchild (List.mem_append_left _ hd')) hd hg hg'
        exact (List.nodup_append.1 hcsn).2.2 d' hd' d List.mem_cons_self this
    · intro ys hys e v hev
      have hav : Offers f entry c b [] available₂ := by
        refine hav₃.moves hs₃ hc hm ?_
        rintro j hj ⟨d', hd', hbelow⟩
        obtain ⟨hne, hg, -⟩ := (ht.idom?_iff d' b).1 (hchild (List.mem_append_left _ hd'))
        exact not_below_of_behind hf hne hg hj hbelow
      obtain ⟨j, jnst, hj, hpure, hv, hje, hjred, home, zs, hhome, hjz, hg, -⟩ := hav hev
      refine ⟨j, jnst, hj, hpure, hv, hje, hjred, home, zs, hhome, hjz, hg.trans hgd, ?_⟩
      rintro rfl
      exact absurd (hgd.antisymm hg) hbd
    · rintro c' ⟨hc', hm'⟩
      refine ⟨hc', (hm.mono ?_).trans (hm'.mono ?_)⟩
      · rintro i ⟨x, hx, hi⟩
        exact ⟨x, List.mem_append_left _ hx, hi⟩
      · intro i hi
        exact ⟨d, by simp, hi⟩
  · rintro c ⟨hc, hm⟩
    refine ⟨hc, hm₃'.trans (hm.mono ?_)⟩
    rintro i ⟨d, hd, hi⟩
    exact hi.trans ((ht.idom?_iff d b).1 ((hcsm d).1 hd)).2.1

end ValueNumbering

end MiddleEnd
