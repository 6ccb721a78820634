import MiddleEnd.Proofs.Fixpoint
import Mathlib.Logic.Relation

/-!
# Turns of a search

A search for facts takes its work in some order: edges and values from the two lists, instructions
of the block that was entered or users of the value that was taken up. Whatever the order, one turn
moves values up only, takes at most one edge, which was not taken before, and leaves less to do.
Branches on unknown values are opened only where some edge is still unmarked.
-/

namespace MiddleEnd

namespace Propagation

/-- Where a search stands: its state, and the instructions that it has to look at before it takes up
new work. -/
structure Spot where
  state : State
  todo : List InstId := []

/-- The search begins with the way into the function. -/
def Spot.start (entry : BlockId) (values : Dict ValueId LatticeValue) : Spot where
  state := { facts := { values }, edgeWork := [(none, entry)] }

/-- All instructions of a block that is entered for the first time are to be looked at, later only
its phis. -/
def Spot.enter (f : Func) (s : State) (b : BlockId) (insts : List InstId) : Spot :=
  if s.facts.runs b then ⟨s, insts.filter f.flow.isPhi⟩
  else ⟨{ s with facts := { s.facts with blocks := b :: s.facts.blocks } }, insts⟩

/-- One turn of propagation, whatever it picks. -/
inductive Turn (f : Func) (call : CallRule) : Spot → Spot → Prop where
  | look {s s' : State} {todo rest : List InstId} {i : InstId} (pick : todo.Perm (i :: rest))
    (runs : (f.layout.blockOf? i).any s.facts.runs = true) (h : (visit f call s i).Gives s') :
    Turn f call ⟨s, todo⟩ ⟨s', rest⟩
  | skip {s : State} {todo rest : List InstId} {i : InstId} (pick : todo.Perm (i :: rest))
    (idle : (f.layout.blockOf? i).any s.facts.runs = false) : Turn f call ⟨s, todo⟩ ⟨s, rest⟩
  | start {facts : Facts} {edges rest : List (Option BlockId × BlockId)}
      {values : List ValueId} {b : BlockId}
    {xs : List InstId} (pick : edges.Perm ((none, b) :: rest)) (hxs : f.insts b = .ok xs) :
    Turn f call ⟨⟨facts, edges, values⟩, []⟩ (.enter f ⟨facts, rest, values⟩ b xs)
  | drop {facts : Facts} {edges rest : List (Option BlockId × BlockId)} {values : List ValueId}
      {a b : BlockId}
    (pick : edges.Perm ((some a, b) :: rest)) (old : facts.taken a b = true) :
    Turn f call ⟨⟨facts, edges, values⟩, []⟩ ⟨⟨facts, rest, values⟩, []⟩
  | take {facts : Facts} {edges rest : List (Option BlockId × BlockId)} {values : List ValueId}
      {a b : BlockId}
    {xs : List InstId} (pick : edges.Perm ((some a, b) :: rest)) (new : facts.taken a b = false)
    (hxs : f.insts b = .ok xs) :
    Turn f call ⟨⟨facts, edges, values⟩, []⟩
      (.enter f ⟨{ facts with edges := (a, b) :: facts.edges }, rest, values⟩ b xs)
  | users {facts : Facts} {edges : List (Option BlockId × BlockId)}
      {values rest : List ValueId} {v : ValueId}
    {us : KeySet InstId} (pick : values.Perm (v :: rest)) (hus : f.flow.users v = .ok us) :
    Turn f call ⟨⟨facts, edges, values⟩, []⟩ ⟨⟨facts, edges, rest⟩, us.toList⟩

/-- A search goes on with a turn, or opens branches once there is no work left. -/
inductive Move (f : Func) (call : CallRule) : Spot → Spot → Prop where
  | turn {t t' : Spot} (h : Turn f call t t') : Move f call t t'
  | resolve {s s' : State} (hedges : s.edgeWork = []) (hvalues : s.valueWork = [])
      (h : resolveUnknown f s = .ok s')
    (more : s'.edgeWork ≠ []) : Move f call ⟨s, []⟩ ⟨s', []⟩

/-- There is nothing left to do, and no branch to open. -/
structure Spot.Finished (f : Func) (t : Spot) : Prop where
  todo : t.todo = []
  edges : t.state.edgeWork = []
  values : t.state.valueWork = []
  resolved : ∃ s', resolveUnknown f t.state = .ok s' ∧ s'.edgeWork = []

abbrev Turns (f : Func) (call : CallRule) : Spot → Spot → Prop :=
  Relation.ReflTransGen (Turn f call)

abbrev Moves (f : Func) (call : CallRule) : Spot → Spot → Prop :=
  Relation.ReflTransGen (Move f call)

variable {f : Func} {call : CallRule} {s s' : State} {t t' : Spot}

theorem Turns.moves (h : Turns f call t t') : Moves f call t t' :=
  Relation.ReflTransGen.mono (fun _ _ => Move.turn) t t' h

/-- A state after visits: it moved, and only edges that instructions name are marked anew. -/
structure Shifted (f : Func) (n : Nat) (s s' : State) : Prop extends Moved f n s s' where
  named : ∀ {a b}, s'.Marks a b → s.Marks a b ∨ (a, b) ∈ references f

theorem Shifted.refl (f : Func) (s : State) : Shifted f 1 s s :=
  ⟨(Moved.refl f s).mono (Nat.zero_le 1), .inl⟩

theorem update_shifted {i : InstId} {r : ValueId} (hc : f.Coherent) (hr : f.flow.result? i = some r)
    (x : LatticeValue) : (s.update f r x).Ensures (Shifted f 1 s) := by
  obtain ⟨ty, ho, -⟩ := hc.flow.result_origin hr
  rw [State.update_eq ho]
  split
  · exact Run.ensures_pure (.refl f s)
  · rename_i hnew
    exact Run.ensures_after fun _ => Run.ensures_pure ⟨raise_moved ho hnew, .inl⟩

theorem mark_shifted {a b : BlockId} (h : (a, b) ∈ references f) : Shifted f 1 s (s.mark a b) where
  toMoved := moved_of_edges (mark_facts s a b) (mark_valueWork s a b) mem_mark
    (Nat.le_succ_of_le (mark_cost s a b))
  named hm := (marks_mark.1 hm).imp id fun he => by
    obtain ⟨rfl, rfl⟩ := he
    exact h

theorem visitBranch_shifted {i : InstId} {inst : Inst} {b : BlockId}
    (hb : f.layout.blockOf? i = some b) (hi : f.flow.inst? i = some inst)
    (h : visitBranch f s b inst = .ok s') : Shifted f 1 s s' := by
  have hnamed : ∀ {n : Nat} {t : BlockId}, Checked.nth inst.blocks n = .ok t →
      (b, t) ∈ references f :=
    fun hn => mem_references hb hi (List.mem_of_getElem? (ofOption_eq_ok.1 hn))
  unfold visitBranch at h
  split at h
  · obtain ⟨t, ht, h⟩ := bind_eq_ok.1 h
    cases h
    exact mark_shifted (hnamed ht)
  obtain ⟨c, -, h⟩ := bind_eq_ok.1 h
  obtain ⟨x, -, h⟩ := bind_eq_ok.1 h
  cases x with
  | unknown =>
    cases h
    exact .refl f s
  | const w =>
    obtain ⟨t, ht, h⟩ := bind_eq_ok.1 h
    cases h
    exact mark_shifted (hnamed ht)
  | varying =>
    obtain ⟨t, ht, h⟩ := bind_eq_ok.1 h
    obtain ⟨e, he, h⟩ := bind_eq_ok.1 h
    cases h
    refine ⟨moved_of_edges (by simp) (by simp) (fun hw => mem_mark (mem_mark hw)) ?_, fun hm => ?_⟩
    · have := mark_cost (f := f) s b t
      have := mark_cost (f := f) (s.mark b t) b e
      omega
    · rcases marks_mark.1 hm with hm | ⟨rfl, rfl⟩
      · exact (mark_shifted (hnamed ht)).named hm
      · exact .inr (hnamed he)

theorem visit_shifted (hc : f.Coherent) (call : CallRule) (s : State) (i : InstId) :
    (visit f call s i).Ensures (Shifted f 1 s) := by
  unfold visit
  refine Run.Ensures.bind (Run.ensures_lift fun inst hi => DataFlow.inst_eq_ok.1 hi)
    fun inst hi => ?_
  have hresult : ∀ x : LatticeValue,
      ((liftM (f.flow.result i) : Run ValueId) >>= fun r => s.update f r x).Ensures
      (Shifted f 1 s) := fun x =>
    Run.Ensures.bind (Run.ensures_lift fun r hr => DataFlow.result_eq_ok.1 hr) fun r hr =>
      update_shifted hc hr x
  split
  · split
    · exact Run.ensures_after fun x => hresult x
    · exact Run.ensures_pure (.refl f s)
  · split
    · rename_i b hb
      exact Run.ensures_lift fun s' h => visitBranch_shifted hb hi h
    · exact Run.ensures_pure (.refl f s)
  · split
    · rename_i b hb
      exact Run.ensures_lift fun s' h => visitBranch_shifted hb hi h
    · exact Run.ensures_pure (.refl f s)
  · exact Run.ensures_pure (.refl f s)
  · refine Run.ensures_after fun v => Run.ensures_after fun x => Run.ensures_pure ⟨?_, .inl⟩
    exact ⟨rfl, rfl, fun v => LatticeValue.Le.refl _, fun h => absurd rfl h,
      LatticeValue.le_meet_left _ _, id, id, Nat.le_add_right _ _⟩
  · split
    · rename_i r hr
      exact Run.ensures_after fun x => update_shifted hc hr x
    · exact Run.ensures_pure (.refl f s)
  · split
    · exact Run.ensures_after fun x => hresult x
    · split
      · rename_i r hr
        exact update_shifted hc hr _
      · exact Run.ensures_pure (.refl f s)

/-- The edges that are taken or wait are named by instructions, and none is taken twice. -/
structure Charted (f : Func) (s : State) : Prop where
  nodup : s.facts.edges.Nodup
  named : ∀ {a b}, s.Marks a b → (a, b) ∈ references f

theorem Charted.thin (h : Charted f s) (hedges : s'.facts.edges = s.facts.edges)
    (hwork : ∀ {a b}, (some a, b) ∈ s'.edgeWork → s.Marks a b) : Charted f s' where
  nodup := hedges ▸ h.nodup
  named hm := h.named <| hm.elim (fun ht => .inl (by rwa [Facts.taken, ← hedges])) hwork

theorem Charted.edges_le (h : Charted f s) : s.facts.edges.length ≤ refs f := by
  rw [← length_references]
  exact List.Nodup.length_le_of_subset h.nodup fun e he => h.named (.inl (taken_iff.2 he))

theorem Shifted.charted {n : Nat} (h : Shifted f n s s') (hs : Charted f s) : Charted f s' where
  nodup := h.edges ▸ hs.nodup
  named hm := (h.named hm).elim hs.named id

@[simp]
theorem enter_edges (f : Func) (s : State) (b : BlockId) (xs : List InstId) :
    (Spot.enter f s b xs).state.facts.edges = s.facts.edges := by
  unfold Spot.enter
  split <;> rfl

@[simp]
theorem enter_edgeWork (f : Func) (s : State) (b : BlockId) (xs : List InstId) :
    (Spot.enter f s b xs).state.edgeWork = s.edgeWork := by
  unfold Spot.enter
  split <;> rfl

@[simp]
theorem enter_known (f : Func) (s : State) (b : BlockId) (xs : List InstId) (v : ValueId) :
    (Spot.enter f s b xs).state.facts.known f v = s.facts.known f v := by
  unfold Spot.enter
  split <;> rfl

@[simp]
theorem enter_cost (f : Func) (s : State) (b : BlockId) (xs : List InstId) :
    cost f (Spot.enter f s b xs).state = cost f s := by
  unfold Spot.enter
  split <;> rfl

theorem enter_marks {b : BlockId} {xs : List InstId} {p c : BlockId} :
    (Spot.enter f s b xs).state.Marks p c ↔ s.Marks p c := by
  unfold State.Marks Facts.taken
  rw [enter_edges, enter_edgeWork]

theorem enter_length_le (hc : f.Coherent) {b : BlockId} {xs : List InstId}
    (hxs : f.insts b = .ok xs) :
    (Spot.enter f s b xs).todo.length ≤ f.flow.insts.bound := by
  have hle : xs.length ≤ f.flow.insts.bound :=
    length_le_bound (hc.layout.insts_nodup hxs) fun i hi => hc.inst_of_mem hxs hi
  unfold Spot.enter
  split
  · exact Nat.le_trans (List.length_filter_le _ xs) hle
  · exact hle

theorem users_length_le (hc : f.Coherent) {v : ValueId} {us : KeySet InstId}
    (hus : f.flow.users v = .ok us) :
    us.toList.length ≤ f.flow.insts.bound := by
  refine length_le_bound us.nodup fun i hi => ?_
  obtain ⟨e, he, -⟩ := Option.map_eq_some_iff.1 (ofOption_eq_ok.1 hus)
  obtain ⟨inst, hinst, -⟩ :=
    (hc.flow.users_iff (DataFlow.origin?_eq_some.2 ⟨e, he, rfl⟩) i).1 ⟨us, hus, hi⟩
  exact ⟨inst, hinst⟩

theorem edgeCost_perm {l l' : List (Option BlockId × BlockId)} (h : l.Perm l') :
    edgeCost f l = edgeCost f l' := by
  induction h with
  | nil => rfl
  | cons e _ ih =>
    obtain ⟨_ | a, b⟩ := e <;> simp only [edgeCost, ih]
  | swap e e' l =>
    obtain ⟨_ | a, b⟩ := e <;> obtain ⟨_ | a', b'⟩ := e' <;> simp only [edgeCost] <;> omega
  | trans _ _ ih ih' => exact ih.trans ih'

theorem cost_perm {facts : Facts} {edges edges' : List (Option BlockId × BlockId)}
    {values values' : List ValueId} (he : edges.Perm edges') (hv : values.Perm values') :
    cost f ⟨facts, edges, values⟩ = cost f ⟨facts, edges', values'⟩ := by
  simp only [cost, reserve, edgeCost_perm he, hv.length_eq]

/-- What every step of a search does to its state. -/
structure Onward (f : Func) (s s' : State) : Prop where
  known : ∀ v, (s.facts.known f v).Le (s'.facts.known f v)
  edges : s'.facts.edges = s.facts.edges ∨ ∃ e, e ∉ s.facts.edges ∧
    s'.facts.edges = e :: s.facts.edges
  marks : ∀ {a b}, s.Marks a b → s'.Marks a b

theorem Shifted.onward {n : Nat} (h : Shifted f n s s') : Onward f s s' :=
  ⟨h.known, .inl h.edges, h.marks⟩

theorem Turn.onward (h : Turn f call t t') (hc : f.Coherent) : Onward f t.state t'.state := by
  cases h with
  | @look s s' todo rest i pick runs h => exact (h.ensured (visit_shifted hc call s i)).onward
  | skip => exact ⟨fun v => LatticeValue.Le.refl _, .inl rfl, id⟩
  | start pick hxs =>
    refine ⟨fun v => ?_, .inl (enter_edges ..), fun hm => enter_marks.2 (hm.imp id fun hw => ?_)⟩
    · rw [enter_known]
      exact LatticeValue.Le.refl _
    · exact (List.mem_cons.1 (pick.mem_iff.1 hw)).resolve_left (by simp)
  | drop pick old =>
    refine ⟨fun v => LatticeValue.Le.refl _, .inl rfl, fun hm => hm.elim .inl fun hw => ?_⟩
    rcases List.mem_cons.1 (pick.mem_iff.1 hw) with he | hw
    · cases he
      exact .inl old
    · exact .inr hw
  | @take facts edges rest values a b xs pick new hxs =>
    refine ⟨fun v => ?_, .inr ⟨(a, b), fun hm => ?_, enter_edges ..⟩,
      fun {p c} hm => enter_marks.2 ?_⟩
    · rw [enter_known]
      exact LatticeValue.Le.refl _
    · rw [taken_iff.2 hm] at new
      cases new
    · rcases hm with ht | hw
      · exact .inl (taken_iff.2 (List.mem_cons_of_mem _ (taken_iff.1 ht)))
      · rcases List.mem_cons.1 (pick.mem_iff.1 hw) with he | hw
        · cases he
          exact .inl (taken_iff.2 List.mem_cons_self)
        · exact .inr hw
  | users pick hus => exact ⟨fun v => LatticeValue.Le.refl _, .inl rfl, id⟩

theorem Turn.charted (h : Turn f call t t') (hc : f.Coherent) (hs : Charted f t.state) :
    Charted f t'.state := by
  cases h with
  | @look s s' todo rest i pick runs h => exact (h.ensured (visit_shifted hc call s i)).charted hs
  | skip => exact hs
  | start pick hxs =>
    refine hs.thin (enter_edges ..) fun hw => .inr (pick.mem_iff.2 (List.mem_cons_of_mem _ ?_))
    rwa [enter_edgeWork] at hw
  | drop pick old => exact hs.thin rfl fun hw => .inr (pick.mem_iff.2 (List.mem_cons_of_mem _ hw))
  | @take facts edges rest values a b xs pick new hxs =>
    refine ⟨?_, fun {p c} hm => hs.named ?_⟩
    · rw [enter_edges]
      refine List.nodup_cons.2 ⟨fun hm => ?_, hs.nodup⟩
      rw [taken_iff.2 hm] at new
      cases new
    · rcases enter_marks.1 hm with ht | hw
      · rcases List.mem_cons.1 (taken_iff.1 ht) with he | ht
        · cases he
          exact .inr (pick.mem_iff.2 List.mem_cons_self)
        · exact .inl (taken_iff.2 ht)
      · exact .inr (pick.mem_iff.2 (List.mem_cons_of_mem _ hw))
  | users pick hus => exact hs.thin rfl .inr

/-- A bound on the turns before the lists run empty: two marks may come of each visit that is left,
and visits are left that cost nothing. -/
def effort (f : Func) (t : Spot) : Nat :=
  (f.flow.insts.bound + 1) * (cost f t.state + 2 * t.todo.length) + t.todo.length

theorem effort_lt {state : State} (hcost : cost f t.state + visitCost f ≤ cost f state)
    (hlen : t.todo.length ≤ f.flow.insts.bound) : effort f t < effort f ⟨state, []⟩ := by
  have hvisit : visitCost f = 2 * f.flow.insts.bound + 1 := rfl
  have hle : cost f t.state + 2 * t.todo.length + 1 ≤ cost f state := by omega
  have hmul := Nat.mul_le_mul_left (f.flow.insts.bound + 1) hle
  rw [Nat.mul_succ] at hmul
  unfold effort
  simp only [List.length_nil, Nat.mul_zero, Nat.add_zero]
  omega

theorem Shifted.effort_lt (h : Shifted f 1 s s') {todo rest : List InstId} {i : InstId}
    (pick : todo.Perm (i :: rest)) :
    effort f ⟨s', rest⟩ < effort f ⟨s, todo⟩ := by
  have hcost := h.cost
  have hlen := pick.length_eq
  rw [List.length_cons] at hlen
  have hmul := Nat.mul_le_mul_left (f.flow.insts.bound + 1)
    (show cost f s' + 2 * rest.length ≤ cost f s + 2 * todo.length by omega)
  unfold effort
  dsimp only
  omega

theorem Turn.effort_lt (h : Turn f call t t') (hc : f.Coherent) (hs : Charted f t.state) :
    effort f t' < effort f t := by
  have hturn := h
  cases h with
  | @look s s' todo rest i pick runs h =>
    exact (h.ensured (visit_shifted hc call s i)).effort_lt pick
  | @skip s todo rest i pick idle => exact (Shifted.refl f s).effort_lt pick
  | @start facts edges rest values b xs pick hxs =>
    refine Propagation.effort_lt (Nat.le_of_eq ?_) (enter_length_le hc hxs)
    rw [enter_cost, cost_perm pick (.refl values), cost_first]
  | @drop facts edges rest values a b pick old =>
    refine Nat.mul_lt_mul_of_pos_left ?_ (Nat.succ_pos _)
    rw [cost_perm pick (.refl values), cost_drop]
    exact Nat.lt_succ_self _
  | @take facts edges rest values a b xs pick new hxs =>
    have hstart : Charted f ⟨{ facts with edges := (a, b) :: facts.edges }, rest, values⟩ :=
      (hturn.charted hc hs).thin (enter_edges ..).symm fun hw => .inr (by rwa [enter_edgeWork])
    refine Propagation.effort_lt ?_ (enter_length_le hc hxs)
    rw [enter_cost, cost_perm pick (.refl values), cost_drop, cost_take hstart.edges_le]
    exact Nat.le_succ _
  | @users facts edges values rest v us pick hus =>
    refine Propagation.effort_lt (Nat.le_of_eq ?_) (users_length_le hc hus)
    rw [cost_perm (.refl edges) pick, cost_users]

instance (s : State) (a b : BlockId) : Decidable (s.Marks a b) :=
  inferInstanceAs (Decidable (_ ∨ _))

def unmarked (f : Func) (s : State) : List (BlockId × BlockId) :=
  (references f).filter fun e => ¬ s.Marks e.1 e.2

theorem unmarked_length_le (f : Func) (s : State) : (unmarked f s).length ≤ refs f := by
  rw [← length_references]
  exact List.length_filter_le _ _

theorem unmarked_sublist (h : ∀ {a b}, s.Marks a b → s'.Marks a b) :
    (unmarked f s').Sublist (unmarked f s) := by
  have hfilter : unmarked f s' = (unmarked f s).filter fun e => ¬ s'.Marks e.1 e.2 := by
    unfold unmarked
    rw [List.filter_filter]
    refine List.filter_congr fun e _ => ?_
    by_cases hm : s.Marks e.1 e.2
    · simp [h hm]
    · simp [hm]
  rw [hfilter]
  exact List.filter_sublist

theorem unmarked_length_lt (h : ∀ {a b}, s.Marks a b → s'.Marks a b) {a b : BlockId}
    (hab : (a, b) ∈ references f) (hnew : ¬ s.Marks a b) (hm : s'.Marks a b) :
    (unmarked f s').length < (unmarked f s).length := by
  have hsub := unmarked_sublist (f := f) h
  refine Nat.lt_of_le_of_ne hsub.length_le fun he => ?_
  have hmem : (a, b) ∈ unmarked f s := List.mem_filter.2 ⟨hab, by simpa using hnew⟩
  rw [← hsub.eq_of_length he] at hmem
  exact of_decide_eq_true (List.mem_filter.1 hmem).2 hm

theorem resolve_unmarked (hc : f.Coherent) (hedges : s.edgeWork = [])
    (h : resolveUnknown f s = .ok s') (more : s'.edgeWork ≠ []) :
    (unmarked f s').length < (unmarked f s).length := by
  have hw := resolveUnknown_widened hc hedges h
  obtain ⟨e, he⟩ := List.exists_mem_of_ne_nil _ more
  obtain ⟨a, b, rfl, htaken, hab⟩ := hw.fresh he
  refine unmarked_length_lt (fun hm => .inl ?_) hab (fun hm => ?_) (.inr he)
  · rw [hw.facts]
    exact hm.taken hedges
  · rw [hm.taken hedges] at htaken
    cases htaken

theorem resolve_charted (hc : f.Coherent) (hedges : s.edgeWork = [])
    (h : resolveUnknown f s = .ok s') (hs : Charted f s) : Charted f s' := by
  have hw := resolveUnknown_widened hc hedges h
  refine ⟨hw.facts ▸ hs.nodup,
    fun hm => hm.elim (fun ht => hs.named (.inl (hw.facts ▸ ht))) fun he => ?_⟩
  obtain ⟨a, b, hab, -, hmem⟩ := hw.fresh he
  cases hab
  exact hmem

theorem Move.onward (h : Move f call t t') (hc : f.Coherent) : Onward f t.state t'.state := by
  cases h with
  | turn h => exact h.onward hc
  | resolve hedges hvalues h more =>
    have hw := resolveUnknown_widened hc hedges h
    refine ⟨fun v => ?_, .inl (by rw [hw.facts]), fun hm => .inl ?_⟩
    · rw [hw.facts]
      exact LatticeValue.Le.refl _
    · rw [hw.facts]
      exact hm.taken hedges

theorem Move.charted (h : Move f call t t') (hc : f.Coherent) (hs : Charted f t.state) :
    Charted f t'.state := by
  cases h with
  | turn h => exact h.charted hc hs
  | resolve hedges hvalues h more => exact resolve_charted hc hedges h hs

/-- A bound on the steps of a search: branches are opened only where some edge is unmarked, and the
edges that wait then are no more than the references to blocks. -/
def size (f : Func) (t : Spot) : Nat :=
  effort f t + (f.flow.insts.bound + 1) * (refs f + 1) * (unmarked f t.state).length

theorem Move.size_lt (h : Move f call t t') (hc : f.Coherent) (hs : Charted f t.state) :
    size f t' < size f t := by
  cases h with
  | turn h =>
    exact Nat.add_lt_add_of_lt_of_le (h.effort_lt hc hs)
      (Nat.mul_le_mul_left _ (unmarked_sublist (h.onward hc).marks).length_le)
  | @resolve s s' hedges hvalues h more =>
    have hw := resolveUnknown_widened hc hedges h
    have hcost : cost f s' ≤ cost f s + refs f := by
      have := hw.edgeCost_le
      unfold cost reserve
      rw [hw.facts, hw.values, hedges]
      omega
    have heffort := Nat.mul_le_mul_left (f.flow.insts.bound + 1) hcost
    have hless := Nat.mul_le_mul_left ((f.flow.insts.bound + 1) * (refs f + 1))
      (resolve_unmarked hc hedges h more)
    rw [Nat.mul_add] at heffort
    rw [Nat.mul_succ, Nat.mul_succ] at hless
    unfold size effort
    simp only [List.length_nil, Nat.mul_zero, Nat.add_zero, Nat.mul_succ]
    omega

theorem start_charted (f : Func) (entry : BlockId) (values : Dict ValueId LatticeValue) :
    Charted f (Spot.start entry values).state where
  nodup := List.nodup_nil
  named hm := by
    rcases hm with ht | hw
    · cases ht
    · cases List.mem_singleton.1 hw

/-- More than the steps of any search in the function. -/
def searchBound (f : Func) : Nat :=
  (f.flow.insts.bound + 1) * (workBound f.flow + (refs f + 1) * refs f)

theorem size_start_lt (f : Func) (entry : BlockId) (values : Dict ValueId LatticeValue) :
    size f (.start entry values) < searchBound f := by
  have hcost : cost f (Spot.start entry values).state < workBound f.flow :=
    cost_lt rfl (Nat.le_add_right _ _)
  have hwork := Nat.mul_lt_mul_of_pos_left hcost (Nat.succ_pos f.flow.insts.bound)
  have hmarks := Nat.mul_le_mul_left ((f.flow.insts.bound + 1) * (refs f + 1))
    (unmarked_length_le f (Spot.start entry values).state)
  rw [Nat.mul_assoc, Nat.mul_assoc] at hmarks
  have heffort : effort f (Spot.start entry values) =
      (f.flow.insts.bound + 1) * cost f (Spot.start entry values).state := rfl
  unfold size searchBound
  rw [heffort, Nat.mul_assoc, Nat.mul_add]
  exact Nat.add_lt_add_of_lt_of_le hwork hmarks

end Propagation

end MiddleEnd
