import MiddleEnd.Proofs.Propagation

/-!
# Work lists that run empty

Propagation comes to an end within the work it is given, and so do the rounds of propagation: every
round but the first follows an edge that was not taken before. In the end every instruction of a
block that runs is settled.
-/

namespace MiddleEnd

namespace Propagation

variable {f : Func} {entry : BlockId} {order : UserOrder} {call : CallRule} {spec : CallSpec}
  {s s' : State}

def references (f : Func) : List (BlockId × BlockId) :=
  f.flow.insts.toList.flatMap fun p => p.2.inst.blocks.map fun t =>
    ((f.layout.blockOf? p.1).getD ⟨0⟩, t)

theorem length_references (f : Func) : (references f).length = refs f := by
  have hfold : ∀ (l : List (InstId × InstEntry)) (n : Nat),
      (l.map (·.2)).foldl (fun n e => n + e.inst.blocks.length) n =
        n + (l.flatMap fun p => p.2.inst.blocks.map fun t => ((f.layout.blockOf? p.1).getD ⟨0⟩,
        t)).length := by
    intro l
    induction l with
    | nil => exact fun _ => rfl
    | cons p l ih =>
      intro n
      rw [List.map_cons, List.foldl_cons, ih, List.flatMap_cons, List.length_append,
        List.length_map]
      omega
  exact (Nat.zero_add _).symm.trans (hfold f.flow.insts.toList 0).symm

theorem references_sublist {i : InstId} {inst : Inst} {b : BlockId}
    (hb : f.layout.blockOf? i = some b) (hi : f.flow.inst? i = some inst) :
    (inst.blocks.map fun t => (b, t)).Sublist (references f) := by
  obtain ⟨e, he, rfl⟩ := DataFlow.inst?_eq_some.1 hi
  refine List.sublist_flatten_of_mem (List.mem_map.2 ⟨(i, e), Table.mem_toList.2 he, ?_⟩)
  simp only [hb, Option.getD_some]

theorem mem_references {i : InstId} {inst : Inst} {a b : BlockId}
    (ha : f.layout.blockOf? i = some a) (hi : f.flow.inst? i = some inst) (hb : b ∈ inst.blocks) :
    (a, b) ∈ references f :=
  (references_sublist ha hi).subset (List.mem_map.2 ⟨b, hb, rfl⟩)

theorem edges_le (hc : f.Coherent) {edges : List (BlockId × BlockId)} (hn : edges.Nodup)
    (h : ∀ {a b}, (a, b) ∈ edges → f.Leads a b) : edges.length ≤ refs f := by
  rw [← length_references]
  refine List.Nodup.length_le_of_subset hn ?_
  rintro ⟨a, b⟩ hab
  obtain ⟨xs, t, inst, hxs, hlast, hinst, -, hb⟩ := Func.leads_iff.1 (h hab)
  exact mem_references (hc.blockOf?_eq_some.2 ⟨xs, hxs, List.mem_of_getLast? hlast⟩) hinst hb

theorem cost_lt (hv : s.valueWork = []) (he : edgeCost f s.edgeWork ≤ visitCost f + refs f) :
    cost f s < workBound f.flow := by
  have hslack : total (fun v => (s.facts.known f v).slack) f.flow.values.bound ≤ 2 *
      f.flow.values.bound :=
    total_le_mul (fun v => LatticeValue.slack_le _) _
  have hres : reserve f s + 1 + refs f ≤ 2 * (f.flow.values.bound + refs f + 2) := by
    unfold reserve
    rw [hv, List.length_nil]
    omega
  have hvisit : visitCost f < 2 * (f.flow.insts.bound + 2) := by
    unfold visitCost
    omega
  have hrefs : refs f ≤ visitCost f * refs f := Nat.le_mul_of_pos_left _ (Nat.succ_pos _)
  calc cost f s ≤ visitCost f * (reserve f s + 1 + refs f) := by
        unfold cost
        rw [Nat.mul_add, Nat.mul_succ]
        omega
    _ ≤ visitCost f * (2 * (f.flow.values.bound + refs f + 2)) := Nat.mul_le_mul_left _ hres
    _ < 2 * (f.flow.insts.bound + 2) * (2 * (f.flow.values.bound + refs f + 2)) :=
        Nat.mul_lt_mul_of_pos_right hvisit (by omega)
    _ = workBound f.flow := by
        show _ = 4 * (f.flow.values.bound + refs f + 2) * (f.flow.insts.bound + 2)
        rw [Nat.mul_mul_mul_comm, Nat.mul_comm (f.flow.insts.bound + 2), Nat.mul_assoc 4]

theorem taken_iff {facts : Facts} {a b : BlockId} : facts.taken a b = true ↔ (a, b) ∈ facts.edges :=
  decide_eq_true_iff

/-- What holds whenever a piece of work is done. -/
structure Steady (f : Func) (entry : BlockId) (spec : CallSpec) (s : State) : Prop extends
    Kept f entry spec (fun _ => False) s where
  landed : ∀ {a b}, s.facts.taken a b = true → s.facts.runs b = true
  /-- Blocks run only where edges that are taken lead to. -/
  reached : ∀ {b}, s.facts.runs b = true → Connects (fun a c => s.facts.taken a c = true) entry b

theorem Steady.settled_or (h : Steady f entry spec s) {b : BlockId} {xs : List InstId}
    {i : InstId} {inst : Inst} (hb : s.facts.runs b = true) (hxs : f.insts b = .ok xs) (hi : i ∈ xs)
    (hinst : f.flow.inst? i = some inst) :
    Pending s inst ∨ Settled f spec s.facts s.Marks b i inst :=
  (h.settled hb hxs hi hinst).resolve_left id

theorem Steady.pop (hf : Workable f entry) {facts : Facts} {e : Option BlockId × BlockId}
    {rest : List (Option BlockId × BlockId)} {values : List ValueId}
    (h : Steady f entry spec ⟨facts, e :: rest, values⟩)
    (he : ∀ {a b}, e = (some a, b) → facts.taken a b = true) :
    Steady f entry spec ⟨facts, rest, values⟩ where
  toKept :=
    { h with
      waiting := fun hw => h.waiting (List.mem_cons_of_mem _ hw)
      first := fun hw => h.first (List.mem_cons_of_mem _ hw)
      settled := fun {b xs i inst} hb hxs hi hinst => .inr <| (h.settled_or hb hxs hi hinst).imp id
        fun hset => by
        refine hset.mono (fun v hv => hf.coherent.flow.operand hinst hv) (fun _ _ => rfl)
          (fun _ => LatticeValue.Le.refl _) (fun _ _ h => h) (LatticeValue.Le.refl _) ?_
        rintro t (ht | ht)
        · exact .inl ht
        · rcases List.mem_cons.1 ht with ht | ht
          · exact .inl (he ht.symm)
          · exact .inr ht }
  landed := h.landed
  reached := h.reached

theorem first_spec (hf : Workable f entry) (hcall : Answers f call spec)
    {facts : Facts} {b : BlockId} {rest : List (Option BlockId × BlockId)} {values : List ValueId}
    (h : Steady f entry spec ⟨facts, (none, b) :: rest, values⟩) :
    (enter f call ⟨facts, rest, values⟩ b).Yields fun s' => Steady f entry spec s' ∧
      Grew f ⟨facts, (none, b) :: rest, values⟩ s' ∧
      cost f s' < cost f ⟨facts, (none, b) :: rest, values⟩ := by
  have hpop : Steady f entry spec ⟨facts, rest, values⟩ := h.pop hf fun he => (nomatch he)
  obtain rfl := h.first List.mem_cons_self
  refine (enter_spec hf hcall (Connects.refl _ _) (hpop.mono fun _ hi => hi.elim)).mono ?_
  rintro s' ⟨hs', hedges, hruns, hgrew, hcost⟩
  have htaken : ∀ a c, s'.facts.taken a c = facts.taken a c := fun a c => by
    unfold Facts.taken
    rw [hedges]
  refine ⟨⟨hs', fun {a c} ht => ?_, fun {c} hc => ?_⟩, ⟨hgrew.known, ?_, ?_⟩,
    Nat.lt_of_le_of_lt hcost ?_⟩
  · rw [htaken] at ht
    exact (hruns c).2 (.inl (h.landed ht))
  · simp only [htaken]
    rcases (hruns c).1 hc with hc | rfl
    · exact h.reached hc
    · exact .refl _ _
  · rintro c (hc | hc)
    · exact .inl ((hruns c).2 (.inl hc))
    · rcases List.mem_cons.1 hc with hc | hc
      · cases hc
        exact .inl ((hruns _).2 (.inr rfl))
      · exact hgrew.runs (.inr hc)
  · rintro a c (ht | ht)
    · exact hgrew.marks (.inl ht)
    · rcases List.mem_cons.1 ht with ht | ht
      · cases ht
      · exact hgrew.marks (.inr ht)
  · rw [cost_first]
    exact Nat.lt_succ_self _

/-- An edge is taken for the first time. -/
theorem take_spec (hf : Workable f entry) (hcall : Answers f call spec) {facts : Facts}
    {a b : BlockId} {rest : List (Option BlockId × BlockId)} {values : List ValueId}
    (h : Steady f entry spec ⟨facts, (some a, b) :: rest, values⟩)
    (hnew : ¬ facts.taken a b = true) :
    (enter f call ⟨{ facts with edges := (a, b) :: facts.edges }, rest, values⟩ b).Yields fun s' =>
      Steady f entry spec s' ∧ Grew f ⟨facts, (some a, b) :: rest, values⟩ s' ∧
      cost f s' < cost f ⟨facts, (some a, b) :: rest, values⟩ := by
  obtain ⟨hruns, hlead⟩ := h.waiting List.mem_cons_self
  have htaken : ∀ p c, Facts.taken { facts with edges := (a, b) :: facts.edges } p c = true ↔
      facts.taken p c = true ∨ p = a ∧ c = b := by
    intro p c
    simp [Facts.taken, or_comm]
  have hnodup : ((a, b) :: facts.edges).Nodup :=
    List.nodup_cons.2 ⟨fun hm => hnew (taken_iff.2 hm), h.nodup⟩
  have hleads : ∀ {p c}, Facts.taken { facts with edges := (a, b) :: facts.edges } p c = true →
      f.Leads p c := by
    intro p c hpc
    rcases (htaken p c).1 hpc with hpc | ⟨rfl, rfl⟩
    · exact h.leads hpc
    · exact hlead
  have hstart : Kept f entry spec (fun i => f.flow.isPhi i = true ∧ f.layout.blockOf? i = some b)
      ⟨{ facts with edges := (a, b) :: facts.edges }, rest, values⟩ := by
    refine { h with waiting := ?_, first := ?_, nodup := hnodup, leads := hleads, settled := ?_ }
    · exact fun hw => h.waiting (List.mem_cons_of_mem _ hw)
    · exact fun hw => h.first (List.mem_cons_of_mem _ hw)
    · intro c xs i inst hc hxs hi hinst
      by_cases hex : f.flow.isPhi i = true ∧ f.layout.blockOf? i = some b
      · exact .inl hex
      refine .inr ((h.settled_or hc hxs hi hinst).imp id fun hset => ?_)
      refine hset.mono (fun v hv => hf.coherent.flow.operand hinst hv) (fun _ _ => rfl)
        (fun _ => LatticeValue.Le.refl _) (fun hop p hp => ?_) (LatticeValue.Le.refl _) ?_
      · rcases (htaken p c).1 hp with hp | ⟨-, rfl⟩
        · exact hp
        · refine absurd ⟨?_, hf.coherent.blockOf?_eq_some.2 ⟨xs, hxs, hi⟩⟩ hex
          rw [DataFlow.isPhi_of_inst hinst, hop]
          rfl
      · rintro t (ht | ht)
        · exact .inl ((htaken c t).2 (.inl ht))
        · rcases List.mem_cons.1 ht with ht | ht
          · cases ht
            exact .inl ((htaken _ _).2 (.inr ⟨rfl, rfl⟩))
          · exact .inr ht
  refine (enter_spec hf hcall ((h.reach hruns).step hlead) hstart).mono ?_
  rintro s' ⟨hs', hedges, hruns', hgrew, hcost⟩
  have htaken' : ∀ p c, s'.facts.taken p c = true ↔ facts.taken p c = true ∨ p = a ∧
      c = b := fun p c => by
    rw [← htaken]
    unfold Facts.taken
    rw [hedges]
  have hkept : ∀ {c}, facts.runs c = true →
      Connects (fun p q => s'.facts.taken p q = true) entry c := by
    intro c hc
    obtain ⟨p, hp⟩ := h.reached hc
    exact ⟨p, hp.mono fun {p q} ht => (htaken' p q).2 (.inl ht)⟩
  refine ⟨⟨hs', fun {p c} ht => ?_, fun {c} hc => ?_⟩, ⟨hgrew.known, ?_, ?_⟩,
    Nat.lt_of_le_of_lt hcost ?_⟩
  · rcases (htaken' p c).1 ht with ht | ⟨-, rfl⟩
    · exact (hruns' c).2 (.inl (h.landed ht))
    · exact (hruns' c).2 (.inr rfl)
  · rcases (hruns' c).1 hc with hc | rfl
    · exact hkept hc
    · exact (hkept hruns).step ((htaken' a c).2 (.inr ⟨rfl, rfl⟩))
  · rintro c (hc | hc)
    · exact .inl ((hruns' c).2 (.inl hc))
    · rcases List.mem_cons.1 hc with hc | hc
      · cases hc
      · exact hgrew.runs (.inr hc)
  · rintro p c (ht | ht)
    · exact hgrew.marks (.inl ((htaken p c).2 (.inl ht)))
    · rcases List.mem_cons.1 ht with ht | ht
      · cases ht
        exact hgrew.marks (.inl ((htaken _ _).2 (.inr ⟨rfl, rfl⟩)))
      · exact hgrew.marks (.inr ht)
  · -- The edge itself makes up for the visits.
    have hle : ((a, b) :: facts.edges).length ≤ refs f :=
      edges_le hf.coherent hnodup fun hm => hleads (taken_iff.2 hm)
    rw [cost_drop, cost_take hle]
    exact Nat.lt_succ_of_lt (Nat.lt_succ_self _)

theorem users_spec (hf : Workable f entry) (hcall : Answers f call spec) {facts : Facts}
    {edges : List (Option BlockId × BlockId)} {v : ValueId} {rest : List ValueId}
    (h : Steady f entry spec ⟨facts, edges, v :: rest⟩) :
    (visitUsers order f call ⟨facts, edges, rest⟩ v).Yields fun s' => Steady f entry spec s' ∧
      Grew f ⟨facts, edges, v :: rest⟩ s' ∧ cost f s' < cost f ⟨facts, edges, v :: rest⟩ := by
  obtain ⟨o, ho⟩ := h.stale List.mem_cons_self
  have hstart : Kept f entry spec (fun i => ∃ inst, f.flow.inst? i = some inst ∧ v ∈ inst.args)
      ⟨facts, edges, rest⟩ := by
    refine { h with stale := fun hw => h.stale (List.mem_cons_of_mem _ hw), settled := ?_ }
    intro b xs i inst hb hxs hi hinst
    rcases h.settled_or hb hxs hi hinst with ⟨w, hw, hmem⟩ | hset
    · rcases List.mem_cons.1 hmem with rfl | hmem
      · exact .inl ⟨inst, hinst, hw⟩
      · exact .inr (.inl ⟨w, hw, hmem⟩)
    · exact .inr (.inr hset)
  refine (visitUsers_spec hf hcall ho hstart).mono ?_
  rintro s' ⟨hs', hm⟩
  refine ⟨⟨hs', fun {p c} ht => ?_, fun {c} hc => ?_⟩, ⟨hm.known, hm.grew.runs, hm.grew.marks⟩,
    Nat.lt_of_le_of_lt hm.cost ?_⟩
  · rw [hm.taken] at ht
    rw [hm.runs]
    exact h.landed ht
  · rw [hm.runs] at hc
    simp only [hm.taken]
    exact h.reached hc
  · rw [cost_users]
    exact Nat.lt_succ_self _

theorem propagate_spec (hf : Workable f entry) (hcall : Answers f call spec) :
    ∀ {fuel : Nat} {s : State}, Steady f entry spec s → cost f s < fuel →
      (propagate order f call fuel s).Yields fun s' => Steady f entry spec s' ∧ Grew f s s' ∧
      s'.edgeWork = [] ∧
        s'.valueWork = [] := by
  intro fuel
  induction fuel with
  | zero => intro s _ hcost; omega
  | succ fuel ih =>
    rintro ⟨facts, edgeWork, valueWork⟩ h hcost
    have hnext : ∀ {s : State}, Steady f entry spec s → Grew f ⟨facts, edgeWork, valueWork⟩ s →
        cost f s < cost f ⟨facts, edgeWork, valueWork⟩ →
        (propagate order f call fuel s).Yields fun s' =>
          Steady f entry spec s' ∧ Grew f ⟨facts, edgeWork, valueWork⟩ s' ∧ s'.edgeWork = [] ∧
            s'.valueWork = [] := by
      intro s hs hgrew hlt
      refine (ih hs (by omega)).mono ?_
      rintro s' ⟨hs', hgrew', hempty⟩
      exact ⟨hs', hgrew.trans hgrew', hempty⟩
    match edgeWork, valueWork with
    | (none, b) :: rest, values =>
      exact Run.Yields.bind (first_spec hf hcall h) fun s ⟨hs, hgrew, hlt⟩ => hnext hs hgrew hlt
    | (some a, b) :: rest, values =>
      unfold propagate
      dsimp only
      split
      · rename_i htaken
        refine hnext (h.pop hf fun he => by cases he; exact htaken) ⟨fun _ =>
          LatticeValue.Le.refl _, ?_, ?_⟩ ?_
        · exact fun hc => hc.imp id fun hc => (List.mem_cons.1 hc).resolve_left (by simp)
        · rintro p c (ht | ht)
          · exact .inl ht
          · rcases List.mem_cons.1 ht with ht | ht
            · cases ht
              exact .inl htaken
            · exact .inr ht
        · rw [cost_drop]
          exact Nat.lt_succ_self _
      · rename_i hnew
        exact Run.Yields.bind (take_spec hf hcall h hnew) fun s ⟨hs, hgrew, hlt⟩ =>
          hnext hs hgrew hlt
    | [], v :: rest =>
      exact Run.Yields.bind (users_spec hf hcall h) fun s ⟨hs, hgrew, hlt⟩ => hnext hs hgrew hlt
    | [], [] => exact Run.yields_pure ⟨h, Grew.refl f _, rfl, rfl⟩

theorem edgeCost_fresh {es : List (Option BlockId × BlockId)}
    (h : ∀ e ∈ es, ∃ a b, e = (some a, b)) :
    edgeCost f es = es.length := by
  induction es with
  | nil => rfl
  | cons e es ih =>
    obtain ⟨a, b, rfl⟩ := h e List.mem_cons_self
    rw [edgeCost, ih fun e he => h e (List.mem_cons_of_mem _ he), List.length_cons, Nat.add_comm]

/-- What marking edges does to a state without waiting edges, once the blocks of a list were looked
at: edges wait that are not taken and that instructions of these blocks name. -/
structure Widened (f : Func) (done : List BlockId) (s s' : State) : Prop where
  facts : s'.facts = s.facts
  values : s'.valueWork = s.valueWork
  fresh : ∀ {e}, e ∈ s'.edgeWork → ∃ a b, e = (some a, b) ∧ s.facts.taken a b = false ∧
    (a, b) ∈ references f
  count : s'.edgeWork.length ≤ (references f).countP (·.1 ∈ done)

theorem Widened.length_le {done : List BlockId} (h : Widened f done s s') :
    s'.edgeWork.length ≤ refs f := by
  rw [← length_references]
  exact Nat.le_trans h.count List.countP_le_length

theorem Widened.edgeCost_le {done : List BlockId} (h : Widened f done s s') :
    edgeCost f s'.edgeWork ≤ refs f := by
  rw [edgeCost_fresh fun e he => (h.fresh he).imp fun _ h => h.imp fun _ h => h.1]
  exact h.length_le

theorem countP_append (l : List (BlockId × BlockId)) {done : List BlockId} {b : BlockId}
    (hb : b ∉ done) :
    l.countP (·.1 ∈ done ++ [b]) = l.countP (·.1 ∈ done) + l.countP (·.1 = b) := by
  induction l with
  | nil => rfl
  | cons e l ih =>
    simp only [List.countP_cons, ih]
    by_cases he : e.1 = b
    · simp [he, hb]
      omega
    · simp [he]
      omega

theorem Widened.more {done : List BlockId} (h : Widened f done s s') (b : BlockId) :
    Widened f (done ++ [b]) s s' :=
  { h with count := Nat.le_trans h.count (List.countP_mono_left fun e _ => by simp +contextual) }

theorem Widened.marks {done : List BlockId} (h : Widened f done s s') {b : BlockId}
    {i : InstId} {inst : Inst} (hnew : b ∉ done) (hb : f.layout.blockOf? i = some b)
    (hi : f.flow.inst? i = some inst) :
    Widened f (done ++ [b]) s (inst.blocks.foldl (·.mark b ·) s') := by
  have hfold : (inst.blocks.foldl (·.mark b ·) s').facts = s.facts ∧
      (inst.blocks.foldl (·.mark b ·) s').valueWork = s.valueWork ∧
      (∀ {e}, e ∈ (inst.blocks.foldl (·.mark b ·) s').edgeWork →
        ∃ a c, e = (some a, c) ∧ s.facts.taken a c = false ∧ (a, c) ∈ references f) ∧
      (inst.blocks.foldl (·.mark b ·) s').edgeWork.length ≤ s'.edgeWork.length +
      inst.blocks.length := by
    refine foldl_induct (fun pre (t : State) => t.facts = s.facts ∧ t.valueWork = s.valueWork ∧
      (∀ {e}, e ∈ t.edgeWork → ∃ a c, e = (some a, c) ∧ s.facts.taken a c = false ∧
      (a, c) ∈ references f) ∧ t.edgeWork.length ≤ s'.edgeWork.length + pre.length) ⟨h.facts,
      h.values, h.fresh, Nat.le_refl _⟩ ?_
    rintro pre c post t hl ⟨hfacts, hvalues, hfresh, hcount⟩
    refine ⟨(mark_facts ..).trans hfacts, (mark_valueWork ..).trans hvalues, fun he => ?_, ?_⟩
    · rcases mem_of_mark he with he | ⟨he, htaken⟩
      · exact hfresh he
      · exact ⟨b, c, he, hfacts ▸ htaken,
          mem_references hb hi (hl ▸ List.mem_append_right pre List.mem_cons_self)⟩
    · rw [List.length_append, List.length_singleton]
      unfold State.mark
      split
      · omega
      · rw [List.length_cons]
        omega
  obtain ⟨hfacts, hvalues, hfresh, hcount⟩ := hfold
  refine ⟨hfacts, hvalues, hfresh, ?_⟩
  have hroom := (references_sublist hb hi).countP_le (p := (·.1 = b))
  rw [List.countP_eq_length.2 (by simp), List.length_map] at hroom
  rw [countP_append _ hnew]
  have := h.count
  omega

theorem resolveUnknown_widened (hc : f.Coherent) (hempty : s.edgeWork = [])
    (h : resolveUnknown f s = .ok s') :
    Widened f (f.blocks.filter s.facts.runs) s s' := by
  refine foldlM_ok_induct (fun pre t => Widened f pre s t) h ?_ ?_
  · refine ⟨rfl, rfl, fun he => ?_, ?_⟩
    · rw [hempty] at he
      cases he
    · rw [hempty]
      exact Nat.zero_le _
  · intro pre b post t t' hl ht hstep
    have hnew : b ∉ pre := by
      have hn := hc.layout.blocks_nodup.filter s.facts.runs
      change (f.blocks.filter s.facts.runs).Nodup at hn
      rw [hl] at hn
      exact fun hb => (List.nodup_append.1 hn).2.2 b hb b List.mem_cons_self rfl
    obtain ⟨term?, hterm, hstep⟩ := bind_eq_ok.1 hstep
    cases term? with
    | none =>
      cases hstep
      exact ht.more b
    | some term =>
      obtain ⟨inst, hinst, hstep⟩ := bind_eq_ok.1 hstep
      split at hstep
      · cases hstep
        exact ht.more b
      obtain ⟨c, -, hstep⟩ := bind_eq_ok.1 hstep
      obtain ⟨x, -, hstep⟩ := bind_eq_ok.1 hstep
      split at hstep
      · cases hstep
        exact ht.more b
      cases hstep
      obtain ⟨xs, hxs, hmem⟩ := Func.mem_of_terminator? hterm
      exact ht.marks hnew (hc.blockOf?_eq_some.2 ⟨xs, hxs, hmem⟩) (DataFlow.inst_eq_ok.1 hinst)

/-- The branches of the block on values that nothing is known about are marked to go both ways. -/
def Opened (f : Func) (s : State) (b : BlockId) : Prop :=
  ∀ xs i op c t e, f.insts b = .ok xs → i ∈ xs → f.flow.inst? i = some (.branch op c t e) →
    s.facts.known f c = .unknown → s.Marks b t ∧ s.Marks b e

/-- What opening branches keeps up, once the blocks of a list were looked at. -/
structure Resumed (f : Func) (entry : BlockId) (spec : CallSpec) (done : List BlockId)
    (s s' : State) : Prop extends Steady f entry spec s' where
  facts : s'.facts = s.facts
  opened : ∀ b ∈ done, Opened f s' b

theorem mark_resumed (hf : Workable f entry) (h : Steady f entry spec s) {a b : BlockId}
    (ha : s.facts.runs a = true) (hl : f.Leads a b) : Steady f entry spec (s.mark a b) := by
  obtain ⟨hs, hfacts, hv, he, -, hcost⟩ := mark_spec (f := f) h.toSane ha hl
  refine ⟨h.toKept.moved hf hs (moved_of_edges hfacts hv he (Nat.le_succ_of_le hcost)),
    fun ht => ?_, fun hc => ?_⟩
  · rw [hfacts] at ht ⊢
    exact h.landed ht
  · rw [hfacts] at hc ⊢
    exact h.reached hc

theorem Opened.mark {p : BlockId} (h : Opened f s p) (a b : BlockId) : Opened f (s.mark a b) p := by
  intro xs i op c t e hxs hi hinst hc
  rw [mark_facts] at hc
  exact (h xs i op c t e hxs hi hinst hc).imp (fun hm => marks_mark.2 (.inl hm)) fun hm =>
    marks_mark.2 (.inl hm)

theorem opened_of_last (hf : Workable f entry) {b : BlockId} {front : List InstId}
    {term : InstId} {inst : Inst} (hxs : f.insts b = .ok (front ++ [term]))
    (hinst : f.flow.inst? term = some inst)
    (h : ∀ op c t e, inst = .branch op c t e → s.facts.known f c = .unknown → s.Marks b t ∧
      s.Marks b e) :
    Opened f s b := by
  intro xs i op c t e hxs' hi hinst' hc
  rw [hxs] at hxs'
  cases hxs'
  obtain ⟨front', term', he, -, hfront⟩ := hf.shape.ended hxs
  obtain ⟨rfl, hlast⟩ := List.append_inj' he rfl
  have hop : op = .brCond := by simpa [Verify.formFits] using (hf.types hinst').1
  rcases List.mem_append.1 hi with hi | hi
  · have hplain := hfront i hi
    rw [DataFlow.isTerminator_of_inst hinst', hop] at hplain
    cases hplain
  · rw [List.mem_singleton.1 hi, hinst] at hinst'
    exact h op c t e (Option.some.inj hinst') hc

theorem resolveUnknown_spec (hf : Workable f entry) (h : Steady f entry spec s) :
    ∃ s', resolveUnknown f s = .ok s' ∧ Resumed f entry spec
      (f.blocks.filter s.facts.runs) s s' := by
  unfold resolveUnknown
  refine foldlM_yields (fun pre => Resumed f entry spec pre s) ⟨h, rfl, fun b hb => by cases hb⟩
    fun pre b post t hl ht => ?_
  have hmem : b ∈ f.blocks.filter s.facts.runs := hl ▸ List.mem_append_right pre List.mem_cons_self
  obtain ⟨hb, hruns⟩ := List.mem_filter.1 hmem
  obtain ⟨xs, hxs⟩ := Layout.mem_blocks_iff.1 hb
  obtain ⟨front, term, rfl, hisTerm, -⟩ := hf.shape.ended hxs
  have hterm := Func.terminator?_last hxs hisTerm
  have hmem : term ∈ front ++ [term] := List.mem_append_right _ List.mem_cons_self
  obtain ⟨inst, hinst⟩ := hf.coherent.inst_of_mem hxs hmem
  have hisTerm : inst.op.isTerminator = true :=
    (DataFlow.isTerminator_of_inst hinst).symm.trans hisTerm
  -- A block without an edge to mark is done as it is.
  have hskip : (∀ op c t' e, inst = .branch op c t' e → t.facts.known f c = .unknown →
      t.Marks b t' ∧ t.Marks b e) →
      Resumed f entry spec (pre ++ [b]) s t := fun hopen =>
    { ht with
      opened := fun p hp => (List.mem_append.1 hp).elim (ht.opened p) fun hp =>
        List.mem_singleton.1 hp ▸ opened_of_last hf hxs hinst hopen }
  simp only [hterm, ok_bind, DataFlow.inst_eq_ok.2 hinst]
  split
  · rename_i hop
    refine ⟨t, rfl, hskip fun op c t' e he => ?_⟩
    subst he
    have hform : op = .brCond := by simpa [Verify.formFits] using (hf.types hinst).1
    exact absurd hform hop
  rename_i hop
  obtain ⟨c, x, y, rfl⟩ := Verify.branch_of_form (hf.types hinst).1 (Classical.not_not.1 hop)
  obtain ⟨o, ho⟩ := hf.coherent.flow.operand hinst (List.mem_singleton.2 rfl)
  have hnth : Checked.nth (Inst.branch .brCond c x y).args 0 = .ok c := rfl
  simp only [hnth, ok_bind, State.value, Facts.value_ok ho]
  split
  · rename_i hknown
    refine ⟨t, rfl, hskip fun op c' t' e he hc => ?_⟩
    cases he
    exact absurd hc hknown
  have hlead : ∀ {u}, u ∈ (Inst.branch .brCond c x y).blocks → f.Leads b u :=
    fun hu => hf.shape.leads hxs hmem hinst hisTerm hu
  have hrunst : t.facts.runs b = true := ht.facts ▸ hruns
  have hx := mark_resumed hf ht.toSteady hrunst (hlead (List.mem_cons_self (a := x)))
  have hy := mark_resumed hf hx ((mark_facts t b x).symm ▸ hrunst)
    (hlead (u := y) (by simp [Inst.blocks]))
  refine ⟨(t.mark b x).mark b y, rfl, hy, ?_, fun p hp => ?_⟩
  · rw [mark_facts, mark_facts, ht.facts]
  · rcases List.mem_append.1 hp with hp | hp
    · exact ((ht.opened p hp).mark b x).mark b y
    · rw [List.mem_singleton.1 hp]
      refine opened_of_last hf hxs hinst fun op c' t' e he _ => ?_
      cases he
      exact ⟨marks_mark.2 (.inl (marks_mark.2 (.inr ⟨rfl, rfl⟩))), marks_mark.2 (.inr ⟨rfl, rfl⟩)⟩

/-- Nothing more follows from the facts. -/
structure Closed (f : Func) (entry : BlockId) (spec : CallSpec) (facts : Facts) : Prop where
  typed : facts.Typed f
  returns : ∀ w, facts.returns = .const w → f.sig.returns = w.ty
  starts : facts.runs entry = true
  landed : ∀ {a b}, facts.taken a b = true → facts.runs b = true
  leads : ∀ {a b}, facts.taken a b = true → f.Leads a b
  reached : ∀ {b}, facts.runs b = true → Connects (fun a c => facts.taken a c = true) entry b
  settled : ∀ {b xs i inst}, facts.runs b = true → f.insts b = .ok xs → i ∈ xs →
    f.flow.inst? i = some inst →
    Settled f spec facts (fun a t => facts.taken a t = true) b i inst
  /-- A branch on a value that nothing is known about goes both ways. -/
  opened : ∀ {b xs i op c t e}, facts.runs b = true → f.insts b = .ok xs → i ∈ xs →
    f.flow.inst? i = some (.branch op c t e) → facts.known f c = .unknown →
    facts.taken b t = true ∧ facts.taken b e = true

theorem State.Marks.taken (hempty : s.edgeWork = []) {a b : BlockId} (h : s.Marks a b) :
    s.facts.taken a b = true := by
  refine h.resolve_right fun hw => ?_
  rw [hempty] at hw
  cases hw

theorem Steady.closed (h : Steady f entry spec s) (hempty : s.edgeWork = [])
    (hvalues : s.valueWork = []) (hentry : s.facts.runs entry = true)
    (hopened : ∀ b ∈ f.blocks.filter s.facts.runs, Opened f s b) :
    Closed f entry spec s.facts where
  typed := h.typed
  returns := h.returns
  starts := hentry
  landed := h.landed
  leads := h.leads
  reached := h.reached
  settled hb hxs hi hinst := by
    rcases h.settled_or hb hxs hi hinst with ⟨v, -, hv⟩ | hset
    · rw [hvalues] at hv
      cases hv
    · exact { hset with goes := fun hg => (hset.goes hg).taken hempty }
  opened {b xs i op c t e} hb hxs hi hinst hc := by
    have hmem : b ∈ f.blocks.filter s.facts.runs :=
      List.mem_filter.2 ⟨Layout.mem_blocks_iff.2 ⟨xs, hxs⟩, hb⟩
    exact (hopened b hmem xs i op c t e hxs hi hinst hc).imp (·.taken hempty) (·.taken hempty)

theorem Closed.branches {facts : Facts} (h : Closed f entry spec facts) {b : BlockId}
    {xs : List InstId} {i : InstId} {op : Opcode} {c : ValueId} {t e : BlockId}
    (hb : facts.runs b = true) (hxs : f.insts b = .ok xs) (hi : i ∈ xs)
    (hinst : f.flow.inst? i = some (.branch op c t e)) :
    facts.taken b t = true ∨ facts.taken b e = true := by
  have hset := h.settled hb hxs hi hinst
  cases hc : facts.known f c with
  | unknown => exact .inl (h.opened hb hxs hi hinst hc).1
  | const w =>
    have hgo := hset.goes (.const hc)
    cases hw : w.isZero with
    | true =>
      rw [hw] at hgo
      exact .inr hgo
    | false =>
      rw [hw] at hgo
      exact .inl hgo
  | varying => exact .inl (hset.goes (.onTrue hc))

theorem Grew.edges_lt (h : Grew f s s') (hs : s.facts.edges.Nodup) (hempty : s'.edgeWork = [])
    {a b : BlockId} (hab : (some a, b) ∈ s.edgeWork) (hnew : s.facts.taken a b = false) :
    s.facts.edges.length < s'.facts.edges.length := by
  have htaken : ∀ {p c}, s.Marks p c → (p, c) ∈ s'.facts.edges :=
    fun hm => taken_iff.1 ((h.marks hm).taken hempty)
  have hnodup : ((a, b) :: s.facts.edges).Nodup := by
    refine List.nodup_cons.2 ⟨fun hm => ?_, hs⟩
    rw [taken_iff.2 hm] at hnew
    cases hnew
  refine List.Nodup.length_le_of_subset hnodup fun e he => ?_
  obtain ⟨p, c⟩ := e
  rcases List.mem_cons.1 he with he | he
  · cases he
    exact htaken (.inr hab)
  · exact htaken (.inl (taken_iff.2 he))

/-- The rounds come to an end, at the latest when all edges are taken. -/
theorem rounds_spec (hf : Workable f entry) (hcall : Answers f call spec) :
    ∀ {fuel : Nat} {s : State}, Steady f entry spec s → cost f s < workBound f.flow →
      s.facts.runs entry = true ∨ (none, entry) ∈ s.edgeWork →
      (refs f + 1 < fuel ∨ refs f < fuel + s.facts.edges.length ∧
        ∃ a b, (some a, b) ∈ s.edgeWork ∧ s.facts.taken a b = false) →
      (rounds order f call fuel s).Yields fun facts => Closed f entry spec facts ∧
        ∀ v, (s.facts.known f v).Le (facts.known f v) := by
  intro fuel
  induction fuel with
  | zero =>
    rintro s hs - - (hfuel | ⟨hfuel, -⟩)
    · omega
    · have := edges_le hf.coherent hs.nodup fun hm => hs.leads (taken_iff.2 hm)
      omega
  | succ fuel ih =>
    intro s hs hcost hentry hfuel
    refine Run.Yields.bind (propagate_spec hf hcall hs hcost) ?_
    rintro s₁ ⟨hs₁, hgrew, hempty, hvalues⟩
    obtain ⟨s₂, hres, hs₂⟩ := resolveUnknown_spec hf hs₁
    have hwide := resolveUnknown_widened hf.coherent hempty hres
    have hvalues₂ : s₂.valueWork = [] := hwide.values.trans hvalues
    refine Run.Yields.bind (Run.yields_lift ⟨s₂, hres, rfl⟩) ?_
    rintro _ rfl
    have hentry₁ : s₁.facts.runs entry = true := (hgrew.runs hentry).resolve_right fun hw => by
      rw [hempty] at hw
      cases hw
    split
    · rename_i hdone
      refine Run.yields_pure ⟨?_, fun v => ?_⟩
      · refine hs₂.toSteady.closed (List.isEmpty_iff.1 hdone) hvalues₂ (hs₂.facts ▸ hentry₁) ?_
        rw [hs₂.facts]
        exact hs₂.opened
      · rw [hs₂.facts]
        exact hgrew.known v
    · rename_i hmore
      obtain ⟨e, es, hes⟩ : ∃ e es, s₂.edgeWork = e :: es := by
        cases he : s₂.edgeWork with
        | nil => exact absurd (by rw [he]; rfl) hmore
        | cons e es => exact ⟨e, es, rfl⟩
      have hmem : e ∈ s₂.edgeWork := hes ▸ List.mem_cons_self
      obtain ⟨a, b, rfl, hnew, -⟩ := hwide.fresh hmem
      have hcost₂ := cost_lt hvalues₂ (Nat.le_trans hwide.edgeCost_le (Nat.le_add_left _ _))
      refine (ih hs₂.toSteady hcost₂ (.inl (hs₂.facts ▸ hentry₁)) (.inr ⟨?_, a, b, hmem,
        hs₂.facts ▸ hnew⟩)).mono ?_
      · rw [hs₂.facts]
        rcases hfuel with hfuel | ⟨hfuel, p, c, hpc, hpcnew⟩
        · omega
        · have := hgrew.edges_lt hs.nodup hempty hpc hpcnew
          omega
      · rintro facts ⟨hclosed, hknown⟩
        refine ⟨hclosed, fun v => (hgrew.known v).trans ?_⟩
        rw [← hs₂.facts]
        exact hknown v

theorem solve_spec (order : UserOrder) (hf : Workable f entry) (hcall : Answers f call spec)
    {values : Dict ValueId LatticeValue} (hvalues : Facts.Typed { values } f) :
    (solve order f call values).Yields fun facts => Closed f entry spec facts ∧
      ∀ v, (Facts.known { values } f v).Le (facts.known f v) := by
  have hstart : Steady f entry spec { facts := { values }, edgeWork := [(none, entry)] } := by
    refine ⟨⟨⟨hvalues, fun w hw => (nomatch hw), fun hb => ?_, fun hw => ?_, fun hw => ?_,
      List.nodup_nil, fun ht => ?_,
      fun hv => ?_⟩, fun hb => ?_⟩, fun ht => ?_, fun hb => ?_⟩
    · cases hb
    · cases List.mem_singleton.1 hw
    · cases List.mem_singleton.1 hw
      rfl
    · cases ht
    · cases hv
    · cases hb
    · cases ht
    · cases hb
  refine Run.Yields.bind (Run.yields_lift ⟨entry, hf.starts, rfl⟩) ?_
  rintro _ rfl
  refine rounds_spec hf hcall hstart (cost_lt rfl (Nat.le_add_right _ _))
    (.inr (List.mem_singleton.2 rfl)) (.inl ?_)
  exact Nat.lt_succ_self _

end Propagation

end MiddleEnd
